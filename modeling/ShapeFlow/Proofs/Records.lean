/-
# What walks leave behind

A block that has been gone through, and is not pending, need not be gone through again:
its routine still has all that its last walk found, the routines it calls return what they
did then, and what they were given has been seen by them or is in a report.  Each act keeps
this, if no routine is added.  What it changes makes the blocks pending that depend on it.

The last walk is looked at by itself, without the calls logged before it, so that what it
has logged are the calls of its block.

Key definitions: `Mid.Heard`, `Mid.Accounts`, `Mid.Settles`, `Mid.Settling`.
Key theorems: `Walks.unlogged`, `Act.settled`, `Acts.settling`.
-/
import ShapeFlow.Proofs.Bindings
import ShapeFlow.Proofs.Closure
import ShapeFlow.Proofs.Revisits

namespace ShapeFlow

open ShapeFlow.Flow Infer List TypeSet

/-! ### A walk by itself -/

namespace CallGraph

theorem key_of_mem_addAll : ∀ {es : List CallEdge} {g : CallGraph} {d : CallEdge}, d ∈ g.edges →
    ∃ d' ∈ (g.addAll es).edges, d'.key = d.key
  | [], _, d, hd => ⟨d, hd, rfl⟩
  | e :: es, g, d, hd => by
    obtain ⟨d1, hd1, hkey1⟩ := key_of_mem (e := e) hd
    obtain ⟨d2, hd2, hkey2⟩ := key_of_mem_addAll (g := (g.add e).2) hd1
    exact ⟨d2, hd2, hkey2.trans hkey1⟩

theorem exists_addAll {e : CallEdge} : ∀ {es : List CallEdge} (g : CallGraph), e ∈ es →
    ∃ d ∈ (g.addAll es).edges, d.caller = e.caller ∧ d.callee = e.callee ∧ d.site = e.site
  | o :: es, g, he => by
    rcases mem_cons.1 he with rfl | he
    · obtain ⟨d1, hd1, hlink⟩ := g.exists_add e
      obtain ⟨d2, hd2, hkey⟩ := key_of_mem_addAll (g := (g.add e).2) hd1
      simp only [CallEdge.key, CallEdge.link, Prod.mk.injEq] at hkey hlink
      exact ⟨d2, hd2, hkey.1.trans hlink.1, hkey.2.1.trans hlink.2.1, hkey.2.2.1.trans hlink.2.2⟩
    · exact exists_addAll (g.add o).2 he

end CallGraph

namespace Infer

variable {c c' : Setting} {w w' : Walker}

/-- The walker before anything has been logged. -/
def Walker.unlogged (w : Walker) : Walker := { w with calls := {}, reports := #[] }

theorem Poised.unlogged {sigs : List Signature} (h : Poised sigs w) : Poised sigs w.unlogged :=
  { h with
    edges := fun e he => by cases he
    reports := fun x hx => by simp [Walker.unlogged] at hx }

/-- **A walk by itself** finds the same.  It reports what it logs, for which there are edges. -/
theorem Walks.unlogged (h : Walks c w w') :
    ∃ u, Walks c w.unlogged u ∧ u.table = w'.table ∧ u.routine = w'.routine ∧
      ∀ x ∈ u.reports, x ∈ w'.reports ∧ ∃ e ∈ w'.calls.edges, e.caller = w.routine.id ∧
        e.callee = x.1 ∧ e.site ∈ w.routine.graph.tagsOf c.block := by
  obtain ⟨es, hcaller, hlogs⟩ := (made_block c).logs w
  rw [h.run] at hlogs
  have hsame : w' = w'.logged w.calls w.reports es := by
    have hrun := hlogs w.calls w.reports
    rw [show ({ w with calls := w.calls, reports := w.reports } : Walker) = w from rfl, h.run] at hrun
    exact (EStateM.Result.ok.inj hrun).2
  have hwalk : Walks c w.unlogged (w'.logged {} #[] es) :=
    (block_ends h.before.unlogged).ok (hlogs {} #[])
  refine ⟨w'.logged {} #[] es, hwalk, rfl, rfl, fun x hx => ?_⟩
  obtain ⟨e, he, rfl⟩ : ∃ e ∈ es, (e.callee, e.argTypes) = x := by
    simpa [Walker.logged] using hx
  -- the edges of the walk by itself are its own, so they are calls of its block
  have hsite : e.site ∈ w.routine.graph.tagsOf c.block := by
    obtain ⟨d, hd, -, -, hd'⟩ := CallGraph.exists_addAll {} he
    rcases hwalk.advances.made d hd with ⟨o, ho, -⟩ | ⟨-, -, htag, -⟩
    · cases ho
    · exact hd' ▸ htag
  obtain ⟨d, hd, h1, h2, h3⟩ := CallGraph.exists_addAll w.calls he
  refine ⟨?_, d, ?_, h1.trans (hcaller e he), h2, h3 ▸ hsite⟩
  · rw [hsame]
    exact Array.mem_append.2 (.inr (mem_toArray.2 (mem_map_of_mem he)))
  · rw [hsame]
    exact hd

theorem Setting.Akin.trans {c'' : Setting} (h : c.Akin c') (h' : c'.Akin c'') : c.Akin c'' :=
  ⟨fun name => (h'.candidates name).trans (h.candidates name), h.resolver, h'.resolver',
    h'.heads.trans h.heads⟩

end Infer

/-! ### Blocks that rest -/

namespace Routine

variable {r r' : Routine} {b : Nat}

/-- Nothing has changed for block `b` of a routine, which may have found out more. -/
structure Undisturbed (r r' : Routine) (b : Nat) : Prop where
  id : r'.id = r.id
  graph : r'.graph = r.graph
  names : r'.scope.names = r.scope.names
  input : r'.input? b = r.input? b
  facts : ∀ k ∈ r.graph.tagsOf b, r'.facts[k]? = r.facts[k]?
  inputs : ∀ d s, r.input? d = some s → ∃ s', r'.input? d = some s' ∧ s ≤ s'
  returns : r.scope.returns ≤ r'.scope.returns

theorem Undisturbed.of_frame (h : r' = { r with
      status := r'.status, observed := r'.observed, pending := r'.pending, flags := r'.flags
      candidates := r'.candidates, applied := r'.applied }) : r.Undisturbed r' b := by
  rw [h]
  exact ⟨rfl, rfl, rfl, rfl, fun _ _ => rfl, fun _ s hs => ⟨s, hs, State.le_refl s⟩,
    le_refl _⟩

theorem Undisturbed.refl (r : Routine) (b : Nat) : r.Undisturbed r b := .of_frame rfl

theorem Grows.undisturbed (h : r.Grows r') (hb : b ∉ r'.pending.toList)
    (hfacts : ∀ k ∈ r.graph.tagsOf b, r'.facts[k]? = r.facts[k]?) : r.Undisturbed r' b where
  id := by rw [h.frame]
  graph := by rw [h.frame]
  names := h.names
  input := (h.changed b).resolve_right hb
  facts := hfacts
  inputs := h.inputs
  returns := h.returns

theorem Flows.undisturbed {d : Nat} {s : State} (h : Flows r r' d s) (hb : b ∉ r'.pending.toList) :
    r.Undisturbed r' b :=
  h.grows.undisturbed hb fun _ _ => by rw [h.frame]

theorem Tweak.undisturbed {t : ShapeTable} {n : Nat} (h : Tweak t r r') (hr : r.Valid t n) (ht : t.Valid)
    (hb : b ∉ r'.pending.toList) : r.Undisturbed r' b := by
  cases h with
  | queue h | mark h =>
    refine .of_frame ?_
    rw [h.frame]
  | seed hs => exact (hr.seed_flows ht hs).2.undisturbed hb

end Routine

namespace Infer

theorem Remembers.step {c c1 c2 : Setting} {w w' : Walker} {t t' : ShapeTable} {r r' : Routine}
    (h : Remembers c c1 w w' t r) (hakin : c1.Akin c2) (hblock : c2.block = c1.block)
    (ht : t.Extends t') (hr : r.Undisturbed r' c.block)
    (hsigs : ∀ x ∈ w'.reports, c2.signatures[x.1]? = c1.signatures[x.1]?) :
    Remembers c c2 w w' t' r' where
  akin := h.akin.trans hakin
  block := hblock.trans h.block
  id := hr.id.trans h.id
  graph := hr.graph.trans h.graph
  names := hr.names.trans h.names
  input := hr.input.trans h.input
  table := h.table.trans ht
  facts k hk := (hr.facts k (h.graph ▸ hk)).trans (h.facts k hk)
  inputs b s hs := by
    obtain ⟨s1, hs1, hle1⟩ := h.inputs b s hs
    obtain ⟨s2, hs2, hle2⟩ := hr.inputs b s1 hs1
    exact ⟨s2, hs2, State.le_trans hle1 hle2⟩
  returns := le_trans h.returns hr.returns
  signatures x hx := (hsigs x hx).trans (h.signatures x hx)

end Infer

/-! ### Calls that have been heard of -/

namespace Routine

theorem observe_idem : ∀ (seen args : List TypeSet),
    observe (observe seen args) args = observe seen args
  | [], _ => by simp [observe]
  | s :: seen, [] => by simp [observe]
  | s :: seen, a :: args => by
    simp only [observe, observe_idem seen args, union_eq_left (le_union_right s a.plain)]

theorem observe_absorbed : ∀ {seen args : List TypeSet} (more : List TypeSet),
    observe seen args = seen → observe (observe seen more) args = observe seen more
  | [], _, _, _ => by simp [observe]
  | s :: seen, [], _, _ => by simp [observe]
  | s :: seen, a :: args, [], h => h
  | s :: seen, a :: args, b :: more, h => by
    obtain ⟨hs, hseen⟩ := cons.inj h
    have hle : a.plain ≤ s ∪ b.plain :=
      le_trans (hs ▸ le_union_right s a.plain) (le_union_left _ _)
    simp only [observe, observe_absorbed more hseen, union_eq_left hle]

end Routine

namespace Mid

/-- The call is in a report, or the routine it leads to has seen its arguments. -/
def Heard (m : Mid) (x : Nat × Tuple) : Prop :=
  x ∈ m.reports ∨ ∃ s, m.program.routines[x.1]? = some s ∧ Routine.observe s.observed x.2 = s.observed

theorem Heard.mono {m m' : Mid} {x : Nat × Tuple} (h : m.Heard x)
    (hreports : x ∈ m.reports → m'.Heard x)
    (hroutines : ∀ r, m.program.routines[x.1]? = some r →
      ∃ r', m'.program.routines[x.1]? = some r' ∧ (r'.observed = r.observed ∨
        ∃ args, r'.observed = Routine.observe r.observed args)) : m'.Heard x := by
  rcases h with hx | ⟨r, hr, hseen⟩
  · exact hreports hx
  · obtain ⟨r', hr', heq | ⟨args, heq⟩⟩ := hroutines r hr
    · exact .inr ⟨r', hr', by rw [heq, hseen]⟩
    · exact .inr ⟨r', hr', by rw [heq, Routine.observe_absorbed args hseen]⟩

/-- All that the walk from `w` to `w'`, by itself, found in block `b` of routine `r` has been taken
into account, or is in a report. -/
structure Accounts (m : Mid) (r : Routine) (b : Nat) (c : Setting) (w w' : Walker) : Prop where
  walk : Walks c w w'
  steady : w.routine.graph.IsSteady
  sites : w.routine.sites = []
  memory : Remembers c (m.program.setting m.sigs b) w w' m.program.table r
  calls : ∀ x ∈ w'.reports, ∃ k ∈ r.graph.tagsOf b, m.program.HasCalled r.id k x.1
  heard : ∀ x ∈ w'.reports, m.Heard x

/-- Going through block `b` of routine `r` again would find nothing new. -/
def UpToDate (m : Mid) (r : Routine) (b : Nat) : Prop := ∃ c w w', m.Accounts r b c w w'

/-- Blocks that have been reached, and are not pending, need not be gone through again. -/
def Settles (m : Mid) : Prop :=
  ∀ r ∈ m.program.routines, ∀ b, (r.input? b).isSome = true → b ∉ r.pending.toList → m.UpToDate r b

/-- What one act carries over for the walks before it. -/
structure Carries (m m' : Mid) : Prop where
  akin : ∀ b, (m.program.setting m.sigs b).Akin (m'.program.setting m'.sigs b)
  table : m.program.table.Extends m'.program.table
  calls : ∀ i k j, m.program.HasCalled i k j → m'.program.HasCalled i k j
  heard : ∀ x, m.Heard x → m'.Heard x

variable {m m' : Mid}

theorem Accounts.step {r r' : Routine} {b : Nat} {c : Setting} {w w' : Walker}
    (h : m.Accounts r b c w w') (hm : m.Carries m') (hr : r.Undisturbed r' b)
    (hsigs : ∀ k ∈ r.graph.tagsOf b, ∀ j, m.program.HasCalled r.id k j → m'.sigs[j]? = m.sigs[j]?) :
    m'.Accounts r' b c w w' where
  walk := h.walk
  steady := h.steady
  sites := h.sites
  memory := by
    refine h.memory.step (hm.akin b) rfl hm.table (h.memory.block ▸ hr) fun x hx => ?_
    obtain ⟨k, hk, hcalled⟩ := h.calls x hx
    exact hsigs k hk x.1 hcalled
  calls x hx := by
    obtain ⟨k, hk, hcalled⟩ := h.calls x hx
    exact ⟨k, hr.graph ▸ hk, hr.id ▸ hm.calls _ _ _ hcalled⟩
  heard x hx := hm.heard x (h.heard x hx)

theorem Settles.step (h : m.Settles) (hm : m.Carries m')
    (hback : ∀ r' ∈ m'.program.routines, ∀ b, (r'.input? b).isSome = true →
      b ∉ r'.pending.toList → m'.UpToDate r' b ∨ ∃ r ∈ m.program.routines, r.Undisturbed r' b ∧
        b ∉ r.pending.toList ∧
        ∀ k ∈ r.graph.tagsOf b, ∀ j, m.program.HasCalled r.id k j → m'.sigs[j]? = m.sigs[j]?) :
    m'.Settles := by
  intro r' hr' b hb hidle
  rcases hback r' hr' b hb hidle with hsettled | ⟨r, hr, hundisturbed, hidle', hsigs⟩
  · exact hsettled
  · obtain ⟨c, w, w', hacc⟩ := h r hr b (hundisturbed.input ▸ hb) hidle'
    exact ⟨c, w, w', hacc.step hm hundisturbed hsigs⟩

end Mid

/-! ### What acts carry over -/

variable {m m' : Mid} {p p' : Program} {r r' : Routine} {i : Nat}

theorem Routine.SameText.head (h : r.SameText r') :
    r'.signature.head = r.signature.head := by
  unfold signature paramTypes Signature.head
  simp only [h.id, h.params, h.fixed]

theorem Mid.Tidy.heads (h : m.Tidy) :
    m.sigs.map Signature.head = m.program.routines.map fun r => r.signature.head := by
  refine ext_getElem? fun i => ?_
  rw [getElem?_map, getElem?_map]
  rcases hs : m.sigs[i]? with _ | s
  · have hlen : m.program.routines.length ≤ i := h.count.symm.trans_le (getElem?_eq_none_iff.1 hs)
    rw [getElem?_eq_none_iff.2 hlen]
    rfl
  · obtain ⟨r, hr, heq, -⟩ := h.sigs i s hs
    rw [hr, heq]
    rfl

theorem Program.Later.heads (h : p.Later p') (hsize : p'.size = p.size) :
    (p'.routines.map fun r => r.signature.head) = p.routines.map fun r => r.signature.head := by
  refine ext_getElem? fun i => ?_
  rw [getElem?_map, getElem?_map]
  rcases hr : p.routines[i]? with _ | r
  · have hlen : p'.routines.length ≤ i := hsize.trans_le (getElem?_eq_none_iff.1 hr)
    rw [getElem?_eq_none_iff.2 hlen]
  · obtain ⟨r', hr', htext, -⟩ := h.routines i r hr
    rw [hr']
    exact congrArg some htext.head

theorem Act.akin (h : Act m m') (hm : m.Kept) (hres : m.program.resolver = .mostSpecific)
    (hsize : m'.program.size = m.program.size) (b : Nat) :
    (m.program.setting m.sigs b).Akin (m'.program.setting m'.sigs b) where
  candidates := by
    rcases h.names hm with ⟨hnames, -⟩ | ⟨r, -, hpush⟩
    · exact hnames
    · rw [hpush, Program.size_push] at hsize
      omega
  resolver := hres
  resolver' := (h.later hm).resolver.trans hres
  heads := by
    have hheads := (h.later hm).heads hsize
    rw [← (h.move.kept hm).heads, ← hm.heads] at hheads
    exact hheads

theorem Program.report_seen {callee : Nat} {args : Tuple}
    (h : Program.report callee args p = .ok () p') :
    ∃ r r', p.routines[callee]? = some r ∧ r'.observed = Routine.observe r.observed args ∧
      ∀ j, p'.routines[j]? = if callee = j then some r' else p.routines[j]? := by
  obtain ⟨r, r', hr, rfl, rfl | ⟨c, hseed⟩⟩ := Program.report_put h
  · exact ⟨r, _, hr, rfl, Program.routines_put hr _⟩
  · refine ⟨r, r', hr, ?_, Program.routines_put hr _⟩
    rcases Routine.flowInto_cases hseed with rfl | ⟨s, rfl, -⟩ <;> rfl

theorem Act.heard (h : Act m m') (hm : m.Kept) {x : Nat × Tuple} (hx : m.Heard x) :
    m'.Heard x := by
  cases h with
  | change hc =>
    cases hc with
    | relabel | extend => exact hx
    | tweak he =>
      refine hx.mono .inl fun r hr => ?_
      obtain ⟨r', hr', htweak⟩ := he.forth hr
      exact ⟨r', hr', .inl (by rw [htweak.frame (hm.program.valid hr) hm.program.table])⟩
    | push _ _ =>
      refine hx.mono .inl fun r hr => ⟨r, ?_, .inl rfl⟩
      exact (getElem?_append_left (lt_of_getElem? hr)).trans hr
  | @walk p sigs reports i b r q w w' hr _ _ _ hroutine hwalk =>
    refine hx.mono (fun hx => .inl ?_) fun s hs => ?_
    · rcases mem_append.1 hx with hx | hx
      · exact mem_append_left _ hx
      · exact mem_append_right _
          (Array.mem_toList_iff.2 (hwalk.advances.reports x (Array.mem_toList_iff.1 hx)))
    · have hobserved : w'.routine.observed = r.observed := by rw [hwalk.advances.frame, hroutine]
      have halters : Mid.Alters (fun r r' => r'.observed = r.observed) ⟨p, sigs, reports⟩
          ⟨p.after i w', sigs, reports⟩ :=
        Program.alters_put hr (Program.routines_put hr _) (fun _ => rfl) hobserved
      obtain ⟨s', hs', heq⟩ := halters.old x.1 s hs
      exact ⟨s', hs', .inl heq⟩
  | @report p p' sigs callee args reports hrun =>
    obtain ⟨r, r', hr, hseen, hget⟩ := Program.report_seen hrun
    refine hx.mono (fun hx => ?_) fun s hs => ?_
    · rcases mem_cons.1 hx with rfl | hx
      · exact .inr ⟨r', (hget _).trans (if_pos rfl), by rw [hseen, Routine.observe_idem]⟩
      · exact .inl hx
    · by_cases heq : callee = x.1
      · obtain rfl := Option.some.inj ((heq ▸ hr).symm.trans hs)
        exact ⟨r', (hget _).trans (if_pos heq), .inr ⟨args, hseen⟩⟩
      · exact ⟨s, (hget _).trans ((if_neg heq).trans hs), .inl rfl⟩
  | @notify p sigs _ =>
    refine hx.mono .inl fun r hr => ?_
    obtain ⟨r', hr', hpile⟩ := (Program.notify_piles sigs p).forth hr
    exact ⟨r', hr', .inl (by rw [hpile.frame])⟩

theorem Act.hasCalled (h : Act m m') {k j : Nat} (hc : m.program.HasCalled i k j) :
    m'.program.HasCalled i k j := by
  have hsame : m'.program.calls = m.program.calls → m'.program.HasCalled i k j := by
    intro hcalls
    unfold Program.HasCalled
    rw [hcalls]
    exact hc
  cases h with
  | change ha =>
    cases ha with
    | relabel | extend | push => exact hc
    | tweak he => exact hsame (by rw [Mid.of, he.frame]; rfl)
  | @walk p sigs reports i b r q w w' hr _ _ hcalls hroutine hwalk =>
    obtain ⟨e, he, h1, h2, h3⟩ := hc
    obtain ⟨d, hd, hkey⟩ := hwalk.advances.kept e (hcalls ▸ he)
    simp only [CallEdge.key, Prod.mk.injEq] at hkey
    exact ⟨d, hd, hkey.1.trans h1, hkey.2.1.trans h2, hkey.2.2.1.trans h3⟩
  | report hrun =>
    obtain ⟨r, r', -, rfl, -⟩ := Program.report_put hrun
    exact hc
  | @notify p sigs _ =>
    refine hsame ?_
    rw [Mid.of, (Program.notify_piles sigs p).frame]

theorem Act.carries (h : Act m m') (hm : m.Kept) (hres : m.program.resolver = .mostSpecific)
    (hsize : m'.program.size = m.program.size) : m.Carries m' where
  akin := h.akin hm hres hsize
  table := (Turn.move h.move).table
  calls _ _ _ := h.hasCalled
  heard _ := h.heard hm

/-! ### Acts keep blocks settled -/

theorem Program.Each.signatures {R : Routine → Routine → Prop} (h : Program.Each R p p')
    (hR : ∀ (i : Nat) (r r' : Routine), p.routines[i]? = some r → R r r' →
      r'.signature = r.signature) : p'.signatures = p.signatures := by
  refine ext_getElem? fun i => ?_
  rw [Program.signatures, Program.signatures, getElem?_map, getElem?_map]
  rcases hr : p.routines[i]? with _ | r
  · have hlen : p'.routines.length ≤ i := h.size.trans_le (getElem?_eq_none_iff.1 hr)
    rw [getElem?_eq_none_iff.2 hlen]
  · obtain ⟨r', hr', hrr'⟩ := h.forth hr
    rw [hr']
    exact congrArg some (hR i r r' hr hrr')

theorem Routine.Tweak.signature {t : ShapeTable} {n : Nat} (h : r.Tweak t r') (hr : r.Valid t n)
    (ht : t.Valid) : r'.signature = r.signature := by
  rw [h.frame hr ht]
  rfl

section Walk

variable {sigs : List Signature} {reports : List (Nat × Tuple)} {i b : Nat}
  {r : Routine} {q : Agenda Nat} {w w' : Walker}

theorem settled_walk (hres : p.resolver = .mostSpecific) (hwalk : Walks (p.setting sigs b) w w')
    (hsteady : w.routine.graph.IsSteady) (hsites : w.routine.sites = [])
    (hidle : b ∉ w'.routine.pending.toList) :
    Mid.UpToDate ⟨p.after i w', sigs, reports ++ w'.reports.toList⟩ w'.routine b := by
  have hadv := hwalk.advances
  have hid : w'.routine.id = w.routine.id := by rw [hadv.frame]
  obtain ⟨u, hu, htable, hroutine, hreports⟩ := hwalk.unlogged
  refine ⟨p.setting sigs b, w.unlogged, u, hu, hsteady, hsites, ?_, fun x hx => ?_, fun x hx => ?_⟩
  · exact {
      akin := .refl hres
      block := rfl
      id := hid
      graph := hadv.graph
      names := hadv.names
      input := (hadv.toGrows.changed b).resolve_right hidle
      table := htable ▸ .refl _
      facts := fun k _ => by rw [hroutine]
      inputs := fun d s hs => ⟨s, hroutine ▸ hs, State.le_refl s⟩
      returns := hroutine ▸ le_refl _
      signatures := fun _ _ => rfl }
  · obtain ⟨-, e, he, hcaller, hcallee, hsite⟩ := hreports x hx
    exact ⟨e.site, hadv.graph ▸ hsite, e, he, hcaller.trans hid.symm, hcallee, rfl⟩
  · exact .inl (mem_append_right _ (Array.mem_toList_iff.2 (hreports x hx).1))

theorem Mid.Settles.walk (h : Mid.Settles ⟨p, sigs, reports ++ w.reports.toList⟩)
    (hm : Mid.Sound ⟨p, sigs, reports ++ w.reports.toList⟩) (hres : p.resolver = .mostSpecific)
    (hsteady : r.graph.IsSteady) (hsites : r.sites = []) (hr : p.routines[i]? = some r)
    (hpop : r.pending.pop? = some (b, q))
    (hroutine : w.routine = { r with status := .analyzing, pending := q })
    (hwalk : Walks (p.setting sigs b) w w')
    (hc : Mid.Carries ⟨p, sigs, reports ++ w.reports.toList⟩
      ⟨p.after i w', sigs, reports ++ w'.reports.toList⟩) :
    Mid.Settles ⟨p.after i w', sigs, reports ++ w'.reports.toList⟩ := by
  have hadv := hwalk.advances
  refine h.step hc fun s hs b' hb' hidle => ?_
  rcases mem_or_eq_of_mem_set hs with hs | rfl
  · exact .inr ⟨s, hs, .refl s b', hidle, fun _ _ _ _ => rfl⟩
  by_cases hblock : b' = b
  · subst hblock
    refine .inl (settled_walk hres hwalk ?_ ?_ hidle) <;> rw [hroutine] <;> assumption
  · have hsound : r.graph.Sound := (hm.program.valid hr).graph
    -- the walk has written about its own block only
    have hundisturbed : w.routine.Undisturbed w'.routine b' := by
      refine hadv.toGrows.undisturbed hidle fun k hk => hadv.others k fun hk' => hblock ?_
      rw [hroutine] at hk
      have hk' : k ∈ w.routine.graph.tagsOf b := hk'
      rw [hroutine] at hk'
      exact hsound.tagsOf_unique hk hk'
    rw [hroutine] at hundisturbed
    refine .inr ⟨r, mem_of_getElem? hr, { hundisturbed with }, fun hmem => hidle ?_,
      fun _ _ _ _ => rfl⟩
    rw [(Agenda.pop?_spec hpop).1] at hmem
    refine hadv.pending b' ?_
    rw [hroutine]
    exact (mem_cons.1 hmem).resolve_left hblock

end Walk

/-- The end of a round: a block that is not queued calls no routine that returns more. -/
theorem Mid.Settles.notify {sigs : List Signature} (h : Mid.Settles ⟨p, sigs, []⟩)
    (hm : Mid.Sound ⟨p, sigs, []⟩) (hcomplete : ∀ r ∈ p.routines, r.Complete)
    (hc : Mid.Carries ⟨p, sigs, []⟩ (.of (sigs.foldl Program.notifyCallers p))) :
    (Mid.of (sigs.foldl Program.notifyCallers p)).Settles := by
  obtain ⟨hq, hnotified⟩ := Program.notify_spec sigs (hm.program.callReached hcomplete)
  refine h.step hc fun r' hr' b hb hidle => .inr ?_
  obtain ⟨i, hi⟩ := getElem?_of_mem hr'
  obtain ⟨r, hr, hqueues⟩ := hq.back hi
  have hid : r.id = i := hm.program.ids i r hr
  refine ⟨r, mem_of_getElem? hr, ?_, fun hmem => hidle (hqueues.kept b hmem), ?_⟩
  · refine .of_frame ?_
    rw [hqueues.frame]
  · rintro k hk j ⟨e, he, hcaller, hcallee, hsite⟩
    have hedge := hm.program.edges e he
    have hblock : e.block = b := by
      obtain ⟨r1, hr1, -, htag⟩ := hedge.caller
      rw [hcaller, hid, hr] at hr1
      cases hr1
      exact (hm.program.valid hr).graph.tagsOf_unique (hsite ▸ htag) hk
    have hlt : j < sigs.length := by
      rw [show sigs.length = p.size from hm.count]
      exact hcallee ▸ hedge.callee
    obtain ⟨callee, hget, hsig, -⟩ := hm.sigs j sigs[j] (getElem?_eq_getElem hlt)
    have hsid : sigs[j].id = j := by
      rw [hsig]
      exact hm.program.ids j callee hget
    have hsame : callee.scope.returns = sigs[j].returns := by
      by_contra hne
      obtain ⟨r1, hr1, hpending⟩ := hnotified sigs[j] (getElem_mem hlt) callee
        (hsid.symm ▸ hget) hne e he (hcallee.trans hsid.symm)
      rw [hcaller, hid] at hr1
      obtain rfl := Option.mem_unique hr1 hi
      exact hidle (hblock ▸ hpending)
    obtain ⟨callee', hget', hqueues'⟩ := hq.forth hget
    show (Program.signatures _)[j]? = sigs[j]?
    rw [Program.signatures, getElem?_map, hget', getElem?_eq_getElem hlt, hsig, ← hsame,
      hqueues'.frame]
    rfl

/-- **Acts keep blocks settled**, if they add no routine. -/
theorem Act.settled (h : Act m m') (hm : m.Sound) (hres : m.program.resolver = .mostSpecific)
    (hsize : m'.program.size = m.program.size)
    (hsteady : ∀ r ∈ m.program.routines, r.graph.IsSteady ∧ r.sites = []) (hs : m.Settles) :
    m'.Settles := by
  have hc := h.carries hm.kept hres hsize
  cases h with
  | change ha =>
    cases ha with
    | relabel | extend =>
      exact hs.step hc fun r hr b _ hidle => .inr ⟨r, hr, .refl r b, hidle, fun _ _ _ _ => rfl⟩
    | tweak he =>
      have hsigs := he.signatures fun i r r' hr ht =>
        ht.signature (hm.program.valid hr) hm.program.table
      refine hs.step hc fun r' hr' b _ hidle => .inr ?_
      obtain ⟨r, hr, htweak⟩ := he.mem_back hr'
      have hvalid := hm.program.routines r hr
      exact ⟨r, hr, htweak.undisturbed hvalid hm.program.table hidle,
        fun hmem => hidle ((htweak.stands hvalid hm.program.table).pending b hmem),
        fun _ _ j _ => by rw [Mid.of, hsigs]; rfl⟩
    | push _ _ =>
      exact absurd ((Program.size_push ..).symm.trans hsize) (Nat.succ_ne_self _)
  | walk hr hpop _ _ hroutine hwalk =>
    obtain ⟨hgraph, hsites⟩ := hsteady _ (mem_of_getElem? hr)
    exact hs.walk hm hres hgraph hsites hr hpop hroutine hwalk hc
  | @report p p' sigs callee args reports hrun =>
    obtain ⟨r, r', hr, rfl, -, hgrows, hframe⟩ := hm.kept.grows hrun
    refine hs.step hc fun s hmem b _ hidle => .inr ?_
    rcases mem_or_eq_of_mem_set hmem with hmem | rfl
    · exact ⟨s, hmem, .refl s b, hidle, fun _ _ _ _ => rfl⟩
    · exact ⟨r, mem_of_getElem? hr, { hgrows.undisturbed hidle fun _ _ => by rw [hframe] with },
        fun hmem => hidle (hgrows.pending b hmem), fun _ _ _ _ => rfl⟩
  | notify hcomplete => exact hs.notify hm hcomplete hc

theorem Routine.Evolves.steady (h : r.Evolves m r') (hm : m.Kept)
    (hr : m.program.routines[i]? = some r) (hs : r.graph.IsSteady ∧ r.sites = []) :
    r'.graph.IsSteady ∧ r'.sites = [] := by
  refine ⟨(h.text hm hr).graph ▸ hs.1, ?_⟩
  cases h with
  | stir hstirs =>
    rcases hstirs.stands hm hr with hstands | ⟨observed, rfl⟩
    · exact hstands.sites.trans hs.2
    · rfl
  | walk hpop htable hcalls hroutine hwalk heq =>
    subst heq
    refine hwalk.sites ?_ ?_ <;> rw [hroutine]
    exacts [hs.1, hs.2]

/-- What is known of a program in which blocks are settled. -/
structure Mid.Settling (m : Mid) : Prop where
  sound : m.Sound
  resolver : m.program.resolver = .mostSpecific
  steady : ∀ r ∈ m.program.routines, r.graph.IsSteady ∧ r.sites = []
  settles : m.Settles

theorem Act.settling (h : Act m m') (hm : m.Settling)
    (hsize : m'.program.size = m.program.size) : m'.Settling where
  sound := h.move.sound hm.sound
  resolver := (h.later hm.sound.kept).resolver.trans hm.resolver
  steady r' hr' := by
    obtain ⟨i, hi⟩ := getElem?_of_mem hr'
    have hlt : i < m.program.size := hsize ▸ (lt_of_getElem? hi)
    obtain ⟨r, hr⟩ : ∃ r, m.program.routines[i]? = some r := ⟨_, getElem?_eq_getElem hlt⟩
    obtain ⟨s, hs, hevolves⟩ := (h.move.evolves hm.sound.kept).old i r hr
    obtain rfl := Option.mem_unique hs hi
    exact hevolves.steady hm.sound.kept hr (hm.steady r (mem_of_getElem? hr))
  settles := h.settled hm.sound hm.resolver hsize hm.steady hm.settles

theorem Acts.size_le (h : Acts m m') (hm : m.Kept) : m.program.size ≤ m'.program.size := by
  induction h with
  | refl => exact Nat.le_refl _
  | @tail m1 m2 hacts hact ih =>
    have hkept : m1.Kept := (Acts.moves hacts).kept hm
    exact ih.trans (hact.later hkept).size

theorem Acts.keep {P : Mid → Prop} (h : Acts m m') (hm : m.Sound)
    (hsize : m'.program.size = m.program.size)
    (hstep : ∀ {m m' : Mid}, Act m m' → m.Sound → m'.program.size = m.program.size → P m → P m')
    (hP : P m) : P m' := by
  induction h with
  | refl => exact hP
  | @tail m1 m2 hacts hact ih =>
    have hsound : m1.Sound := (Acts.moves hacts).sound hm
    have hle := Acts.size_le hacts hm.kept
    have hle' := (hact.later hsound.kept).size
    exact hstep hact hsound (by omega) (ih (by omega))

/-- **Runs keep blocks settled**, if they add no routine. -/
theorem Acts.settling (h : Acts m m') (hm : m.Settling)
    (hsize : m'.program.size = m.program.size) : m'.Settling :=
  h.keep hm.sound hsize (fun hact _ hsize hm => hact.settling hm hsize) hm

end ShapeFlow
