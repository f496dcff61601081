/-
# What a walk keeps

A walk through an expression changes facts about the expressions of its block,
extends the table and the call graph, and leaves the rest of the routine alone.
It starts and ends with a sane walker: every set is known to the table, every
index is in range.  It fails only if overload resolution picks a routine that
does not exist.

Key definitions: `Ends`, `Place`, `Sane`, `Notes`, `Learns`, `Runs`.
Key theorems: `Runs.bind` and one rule for each step that walks are made of.
-/
import ShapeFlow.Proofs.States

namespace ShapeFlow

open TypeSet

/-! ### Steps that may fail -/

section Ends

variable {ε σ α β : Type} {E : ε → σ → Prop} {s : σ}

/-- The step gives a result as `Q` says, or fails as `E` says. -/
def Ends (E : ε → σ → Prop) (m : EStateM ε σ α) (s : σ) (Q : α → σ → Prop) : Prop :=
  match m s with
  | .ok a s' => Q a s'
  | .error f s' => E f s'

variable {m : EStateM ε σ α} {f : α → EStateM ε σ β}

theorem Ends.bind {Q : β → σ → Prop} (h : Ends E m s fun a s' => Ends E (f a) s' Q) :
    Ends E (m >>= f) s Q := by
  unfold Ends at h ⊢
  rw [show (m >>= f) s = match m s with | .ok a s' => f a s' | .error e s' => .error e s' from rfl]
  revert h
  rcases m s with ⟨a, s'⟩ | ⟨e, s'⟩ <;> exact id

variable {Q : α → σ → Prop}

theorem Ends.mono {Q' : α → σ → Prop} {E' : ε → σ → Prop} (h : Ends E m s Q)
    (hQ : ∀ a s', Q a s' → Q' a s') (hE : ∀ e s', E e s' → E' e s') : Ends E' m s Q' := by
  unfold Ends at h ⊢
  revert h
  rcases m s with ⟨a, s'⟩ | ⟨e, s'⟩
  · exact hQ a s'
  · exact hE e s'

theorem Ends.imp {Q' : α → σ → Prop} (h : Ends E m s Q) (hQ : ∀ a s', Q a s' → Q' a s') :
    Ends E m s Q' := h.mono hQ fun _ _ he => he

theorem Ends.andThen {R : β → σ → Prop} (h : Ends E m s Q)
    (hf : ∀ a s', Q a s' → Ends E (f a) s' R) : Ends E (m >>= f) s R := .bind (h.imp hf)

variable {a : α} {u : σ}

theorem Ends.of_ok (h : m s = .ok a u) (hQ : Q a u) : Ends E m s Q := by
  unfold Ends
  rw [h]
  exact hQ

theorem Ends.ok (h : Ends E m s Q) (hm : m s = .ok a u) : Q a u := by
  unfold Ends at h
  rwa [hm] at h

theorem Ends.error {e : ε} (h : Ends E m s Q) (hm : m s = .error e u) : E e u := by
  unfold Ends at h
  rwa [hm] at h

theorem Ends.of_eq {k : EStateM ε σ α} (h : m s = k u) (hk : Ends E k u Q) : Ends E m s Q := by
  unfold Ends at hk ⊢
  rwa [h]

theorem bind_of_ok (h : m s = .ok a u) : (m >>= f) s = f a u := by
  rw [show (m >>= f) s = match m s with | .ok a s' => f a s' | .error e s' => .error e s' from rfl, h]

theorem get_bind (g : σ → EStateM ε σ β) (s : σ) : ((get : EStateM ε σ σ) >>= g) s = g s s := rfl

theorem ok_of_bind {b : β} {s' : σ} (h : (m >>= f) s = .ok b s') :
    ∃ a u, m s = .ok a u ∧ f a u = .ok b s' := by
  rw [show (m >>= f) s = match m s with
    | .ok a s' => f a s'
    | .error e s' => .error e s' from rfl] at h
  rcases hm : m s with ⟨a, u⟩ | ⟨e, u⟩ <;> rw [hm] at h
  · exact ⟨a, u, rfl, h⟩
  · cases h

end Ends

/-- The resolver picks routines that exist in a program of `n`. -/
def Resolver.Within (r : Resolver) (n : Nat) : Prop :=
  ∀ cands args, cands ≠ [] → (∀ s ∈ cands, s.id < n) → ∀ c ∈ (r cands args).callees, c < n

/-- What is known of an expression refers to shapes, routines and variables that exist. -/
structure Fact.Valid (t : ShapeTable) (vars routines : Nat) (f : Fact) : Prop where
  types : t.Knows f.types
  target : ∀ x ∈ f.target, ∀ c ∈ x.callees, c < routines
  read : ∀ r ∈ f.read, r.var < vars

theorem Fact.Valid.mono {t t' : ShapeTable} {n m : Nat} {f : Fact} (h : f.Valid t n m)
    (ht : t.Extends t') : f.Valid t' n m :=
  { h with types := h.types.mono ht }

/-- What a call is known by, and the block it is made in. -/
def CallEdge.key (e : CallEdge) : Nat × Nat × Nat × Nat := (e.caller, e.callee, e.site, e.block)

namespace Infer

open ShapeFlow.Flow

variable {β : Type} {w w' : Walker} {r r' : Routine} {g : Place}

theorem getRoutine_bind (f : Routine → Walk β) (w : Walker) :
    (getRoutine >>= f) w = f w.routine w := rfl

theorem getTable_bind (f : ShapeTable → Walk β) (w : Walker) :
    (getTable >>= f) w = f w.table w := rfl

theorem ok_of_ofExcept {γ : Type} {x : Except Fault β} {f : β → Walk γ} {b : γ}
    (h : (ofExcept x >>= f) w = .ok b w') : ∃ a, x = .ok a ∧ f a w = .ok b w' := by
  cases x with
  | error e => cases h
  | ok a => exact ⟨a, rfl, h⟩

theorem of_updateScope {f : Scope → Except Fault (β × Scope)} {b : β}
    (h : updateScope f w = .ok b w') : ∃ scope, f w.routine.scope = .ok (b, scope) ∧
      w' = { w with routine := { w.routine with scope } } := by
  obtain ⟨⟨a, scope⟩, hf, h⟩ := ok_of_ofExcept (x := f w.routine.scope) h
  cases h
  exact ⟨scope, hf, rfl⟩

theorem of_flowInto {b : Nat} {s : State} {u : Unit} (h : flowInto b s w = .ok u w') :
    ∃ changed r, w.routine.flowInto b s = .ok (changed, r) ∧ w' = { w with routine := r } := by
  obtain ⟨⟨changed, r⟩, hflow, h⟩ := ok_of_ofExcept (x := w.routine.flowInto b s) h
  cases h
  exact ⟨changed, r, hflow, rfl⟩

/-! ### Sane walkers -/

/-- What is fixed while a walk goes through a block. -/
structure Place where
  setting : Setting
  /-- The routine the block belongs to. -/
  routine : Nat
  /-- The variables of the routine. -/
  names : List String
  /-- The expressions of the block. -/
  tags : Nat → Prop
  /-- Those of them that are calls, with what they call. -/
  calls : Nat → String → List (Expr Nat) → Prop
  /-- Calls that are being bound. -/
  due : Nat → Prop := fun _ => False

namespace Place

/-- The number of variables. -/
def vars (g : Place) : Nat := g.names.length

/-- The number of routines. -/
def routines (g : Place) : Nat := g.setting.signatures.length

end Place

/-- Everything a walker holds is known and in range. -/
structure Sane (g : Place) (w : Walker) : Prop where
  table : w.table.Valid
  id : w.routine.id = g.routine
  scope : w.routine.scope.id = g.routine
  names : w.routine.scope.names = g.names
  tags : ∀ k, g.tags k → k < w.routine.facts.size
  facts : ∀ (k : Nat) (f : Fact), w.routine.facts[k]? = some f → f.Valid w.table g.vars g.routines
  fits : State.Fits g.routine g.vars w.state
  known : State.Known w.table w.state
  sigs : ∀ (i : Nat) (s : Signature), g.setting.signatures[i]? = some s →
    s.id = i ∧ w.table.Knows s.returns
  edges : ∀ e ∈ w.calls.edges, ∀ a ∈ e.argTypes, w.table.Knows a
  reports : ∀ r ∈ w.reports, r.1 < g.routines ∧ ∀ a ∈ r.2, w.table.Knows a

/-- What a call of `name` with arguments of the given types is bound to. -/
def Setting.bind (c : Setting) (name : String) (types : Tuple) : Target :=
  let cands := (c.directory.candidates name).filterMap (c.signatures[·]?)
  if cands.isEmpty then
    if (Library.find? name).isSome then .library name else .unresolved
  else c.resolver cands types

/-- Finds the types of the arguments of a call. -/
def argTypes (c : Setting) (name : String) (args : List (Expr Nat)) : Walk Tuple :=
  let cands := (c.directory.candidates name).filterMap (c.signatures[·]?)
  (Expr.meanings c args).zipIdx.mapM fun (m, i) => do
    let s ← if cands.any (·.isByRef i) then m.quiet else m.value
    return s.plain

/-- The types are among those recorded for the arguments. -/
def ArgsHave (r : Routine) (args : List (Expr Nat)) (types : Tuple) : Prop :=
  List.Forall₂ (fun a s => s ⊆ r.exprTypes a.tag) args types

/-- The call at `k` was bound to `t` by its name and the types its arguments were found to
have. -/
def Asked (g : Place) (r : Routine) (k : Nat) (t : Target) : Prop :=
  ∃ name args types, g.calls k name args ∧ t = g.setting.bind name types ∧ ArgsHave r args types ∧
    ∃ u u', u.routine.id = g.routine ∧ argTypes g.setting name args u = .ok types u'

theorem ArgsHave.mono {args : List (Expr Nat)} {types : Tuple} (h : ArgsHave r args types)
    (htypes : ∀ k, r.exprTypes k ≤ r'.exprTypes k) : ArgsHave r' args types := by
  unfold ArgsHave at h ⊢
  refine h.imp fun a s hs => ?_
  exact subset_iff.2 fun i hi => (htypes a.tag).1 i (subset_iff.1 hs i hi)

theorem Asked.mono {k : Nat} {t : Target} (h : Asked g r k t)
    (htypes : ∀ k, r.exprTypes k ≤ r'.exprTypes k) : Asked g r' k t := by
  obtain ⟨name, args, types, hcall, ht, hgiven, hrun⟩ := h
  exact ⟨name, args, types, hcall, ht, hgiven.mono htypes, hrun⟩

/-- The call at `k` is bound as its arguments ask for, its edges are there and its types cover
what the routines it reaches return. -/
def Bound (g : Place) (w : Walker) (k : Nat) : Prop :=
  ∃ t, w.routine.target? k = some t ∧ Asked g w.routine k t ∧
    ∀ c ∈ t.callees, ∃ s, g.setting.signatures[c]? = some s ∧ s.returns ⊆ w.routine.exprTypes k ∧
      ∃ e ∈ w.calls.edges, e.caller = g.routine ∧ e.callee = c ∧ e.site = k

/-- What a walk adds to what is known of the expressions and the calls. -/
structure Notes (g : Place) (w w' : Walker) : Prop where
  table : w.table.Extends w'.table
  size : w'.routine.facts.size = w.routine.facts.size
  /-- Facts about other blocks stay. -/
  others : ∀ k, ¬ g.tags k → w'.routine.facts[k]? = w.routine.facts[k]?
  types : ∀ k, w.routine.exprTypes k ≤ w'.routine.exprTypes k
  /-- A call keeps its target or is bound anew. -/
  targets : ∀ k, ¬ g.due k →
    w'.routine.target? k = w.routine.target? k ∨ Bound g w' k
  kept : ∀ e ∈ w.calls.edges, ∃ e' ∈ w'.calls.edges, e'.key = e.key
  made : ∀ e' ∈ w'.calls.edges, (∃ e ∈ w.calls.edges, e.key = e'.key) ∨
    e'.caller = g.routine ∧ e'.callee < g.routines ∧ g.tags e'.site ∧ e'.block = g.setting.block
  /-- What an edge says of an argument was known before or has been reported. -/
  evidence : ∀ e' ∈ w'.calls.edges, ∀ i x, x ∈ e'.argTypes.getD i .void →
    (∃ e ∈ w.calls.edges, e.callee = e'.callee ∧ x ∈ e.argTypes.getD i .void) ∨
      ∃ r ∈ w'.reports, r.1 = e'.callee ∧ x ∈ r.2.getD i .void
  reports : ∀ r ∈ w.reports, r ∈ w'.reports

/-- What a walk through an expression changes: notes, and in the routine itself
only facts, flags and which variables are used and aliased. -/
structure Learns (g : Place) (w w' : Walker) : Prop extends Notes g w w' where
  frame : w'.routine = { w.routine with
    facts := w'.routine.facts, flags := w'.routine.flags
    scope := { w.routine.scope with
      used := w'.routine.scope.used, aliased := w'.routine.scope.aliased } }

section Learns

variable {g : Place} {w w' w'' : Walker} {k : Nat}

theorem Notes.edge {c : Nat} (h : Notes g w w')
    (he : ∃ e ∈ w.calls.edges, e.caller = g.routine ∧ e.callee = c ∧ e.site = k) :
    ∃ e ∈ w'.calls.edges, e.caller = g.routine ∧ e.callee = c ∧ e.site = k := by
  obtain ⟨e, he, h1, h2, h3⟩ := he
  obtain ⟨e', he', hkey⟩ := h.kept e he
  simp only [CallEdge.key, Prod.mk.injEq] at hkey
  exact ⟨e', he', hkey.1.trans h1, hkey.2.1.trans h2, hkey.2.2.1.trans h3⟩

theorem Notes.bound (h : Notes g w w') (hk : ¬ g.due k) (hb : Bound g w k) :
    Bound g w' k := by
  rcases h.targets k hk with ht | hb'
  · obtain ⟨t, htk, hasked, hall⟩ := hb
    refine ⟨t, ht.trans htk, hasked.mono h.types, fun c hc => ?_⟩
    obtain ⟨s, hs, hret, he⟩ := hall c hc
    refine ⟨s, hs, ?_, h.edge he⟩
    exact subset_iff.2 fun i hi => (h.types k).1 i (subset_iff.1 hret i hi)
  · exact hb'

theorem Notes.refl (g : Place) (w : Walker) : Notes g w w where
  table := .refl _
  size := rfl
  others _ _ := rfl
  types _ := le_refl _
  targets _ _ := .inl rfl
  kept e he := ⟨e, he, rfl⟩
  made e he := .inl ⟨e, he, rfl⟩
  evidence e he _ _ hx := .inl ⟨e, he, rfl, hx⟩
  reports _ hr := hr

theorem Notes.trans (h : Notes g w w') (h' : Notes g w' w'') : Notes g w w'' where
  table := h.table.trans h'.table
  size := h'.size.trans h.size
  others k hk := (h'.others k hk).trans (h.others k hk)
  types k := le_trans (h.types k) (h'.types k)
  targets k hk := by
    rcases h'.targets k hk with ht | hb
    · rcases h.targets k hk with ht' | hb
      · exact .inl (ht.trans ht')
      · exact .inr (h'.bound hk hb)
    · exact .inr hb
  kept e he := by
    obtain ⟨e1, he1, hkey1⟩ := h.kept e he
    obtain ⟨e2, he2, hkey2⟩ := h'.kept e1 he1
    exact ⟨e2, he2, hkey2.trans hkey1⟩
  made e he := by
    rcases h'.made e he with ⟨e1, he1, hkey1⟩ | hnew
    · rcases h.made e1 he1 with ⟨e2, he2, hkey2⟩ | hnew
      · exact .inl ⟨e2, he2, hkey2.trans hkey1⟩
      · simp only [CallEdge.key, Prod.mk.injEq] at hkey1
        obtain ⟨h1, h2, h3, h4⟩ := hkey1
        rw [h1, h2, h3, h4] at hnew
        exact .inr hnew
    · exact .inr hnew
  evidence e he i x hx := by
    rcases h'.evidence e he i x hx with ⟨e1, he1, hcallee, hx1⟩ | hrep
    · rcases h.evidence e1 he1 i x hx1 with ⟨e2, he2, hcallee2, hx2⟩ | ⟨r, hr, hcallee2, hx2⟩
      · exact .inl ⟨e2, he2, hcallee2.trans hcallee, hx2⟩
      · exact .inr ⟨r, h'.reports r hr, hcallee2.trans hcallee, hx2⟩
    · exact .inr hrep
  reports r hr := h'.reports r (h.reports r hr)

theorem Learns.refl (g : Place) (w : Walker) : Learns g w w :=
  { Notes.refl g w with frame := rfl }

theorem Learns.trans (h : Learns g w w') (h' : Learns g w' w'') : Learns g w w'' :=
  { h.toNotes.trans h'.toNotes with
    frame := by
      rw [h'.frame, h.frame] }

end Learns

/-! ### Runs -/

/-- The place with any call left unbound, as after a failure. -/
def Place.loose (g : Place) : Place := { g with due := fun _ => True }

theorem Learns.loose (h : Learns g w w') : Learns g.loose w w' :=
  { h with targets := fun _ hk => absurd trivial hk }

/-- The step keeps the walker sane and only learns; its result is as `R` says.  It
may fail only if the resolver picks a routine that does not exist. -/
def Runs {β : Type} (g : Place) (m : Walk β) (w : Walker) (R : β → Walker → Prop) : Prop :=
  Ends (fun f w' => ¬ g.setting.resolver.Within g.routines ∧
      (∃ name id, f = .unknownCallee name id) ∧ Sane g w' ∧ Learns g.loose w w')
    m w fun b w' => Sane g w' ∧ Learns g w w' ∧ R b w'

section Runs

variable {g : Place} {w w' : Walker} {β γ : Type}

variable {m : Walk β} {R : β → Walker → Prop}

theorem Runs.and_run (h : Runs g m w R) :
    Runs g m w fun b w' => R b w' ∧ m w = .ok b w' := by
  unfold Runs Ends at h ⊢
  rcases hm : m w with ⟨b, w'⟩ | ⟨f, w'⟩ <;> rw [hm] at h
  · exact ⟨h.1, h.2.1, h.2.2, rfl⟩
  · exact h

theorem Runs.bind {f : β → Walk γ} {R' : γ → Walker → Prop} (h : Runs g m w R)
    (hf : ∀ b w', Sane g w' → Learns g w w' → R b w' → Runs g (f b) w' R') :
    Runs g (m >>= f) w R' := by
  refine Ends.andThen h fun b w' hb => ?_
  obtain ⟨hsane, hlearns, hR⟩ := hb
  refine .mono (hf b w' hsane hlearns hR) (fun c w'' hc => ?_) fun e w'' he => ?_
  · exact ⟨hc.1, hlearns.trans hc.2.1, hc.2.2⟩
  · exact ⟨he.1, he.2.1, he.2.2.1, hlearns.loose.trans he.2.2.2⟩

theorem Runs.mono {R' : β → Walker → Prop} (h : Runs g m w R)
    (hR : ∀ b w', Sane g w' → Learns g w w' → R b w' → R' b w') : Runs g m w R' :=
  Ends.imp h fun b w' hb => ⟨hb.1, hb.2.1, hR b w' hb.1 hb.2.1 hb.2.2⟩

theorem Runs.pure (hw : Sane g w) {b : β} (hR : R b w) :
    Runs g (pure b : Walk β) w R := ⟨hw, .refl g w, hR⟩

theorem Runs.map {f : β → γ} {R : γ → Walker → Prop} (h : Runs g m w fun b w' => R (f b) w') :
    Runs g (f <$> m) w R := by
  rw [map_eq_pure_bind]
  exact h.bind fun b w' hw' _ hR => .pure hw' hR

theorem Runs.discard {R : Unit → Walker → Prop} (h : Runs g m w fun _ w' => R () w') :
    Runs g (discard m) w R := Runs.map h

/-- Steps for each element, each of which establishes `P` of it. -/
theorem Runs.forM {P : β → Walker → Prop} {f : β → Walk PUnit} :
    ∀ {l : List β} {w : Walker}, Sane g w →
      (∀ x ∈ l, ∀ w1 w2, Learns g w1 w2 → P x w1 → P x w2) →
      (∀ x ∈ l, ∀ w', Sane g w' → Runs g (f x) w' fun _ w'' => P x w'') →
      Runs g (l.forM f) w fun _ w' => ∀ x ∈ l, P x w'
  | [], _, hw, _, _ => .pure hw (by simp)
  | x :: l, w, hw, hP, hf => by
    refine (hf x (.head _) w hw).bind fun _ w1 hw1 _ hx => ?_
    refine (Runs.forM hw1 (fun y hy => hP y (List.mem_cons_of_mem x hy))
      fun y hy => hf y (List.mem_cons_of_mem x hy)).mono fun _ w2 _ hl2 hl => ?_
    intro y hy
    rcases List.mem_cons.1 hy with rfl | hy
    · exact hP y (.head _) w1 w2 hl2 hx
    · exact hl y hy

end Runs

/-! ### Parts of a walker -/

section Parts

variable {g : Place} {w : Walker} {t : ShapeTable} {k : Nat} {f : Fact → Fact}

theorem Sane.withState (hw : Sane g w) {s : State} (hfits : State.Fits g.routine g.vars s)
    (hknown : State.Known w.table s) : Sane g { w with state := s } :=
  { hw with fits := hfits, known := hknown }

theorem learns_withState (s : State) : Learns g w { w with state := s } :=
  { Learns.refl g w with }

theorem Sane.withTable (hw : Sane g w) (ht : t.Valid) (hext : w.table.Extends t) :
    Sane g { w with table := t } :=
  { hw with
    table := ht
    facts := fun k f hf => (hw.facts k f hf).mono hext
    known := hw.known.mono hext
    sigs := fun i s hs => ⟨(hw.sigs i s hs).1, (hw.sigs i s hs).2.mono hext⟩
    edges := fun e he a ha => (hw.edges e he a ha).mono hext
    reports := fun r hr => ⟨(hw.reports r hr).1, fun a ha => ((hw.reports r hr).2 a ha).mono hext⟩ }

theorem learns_withTable (hext : w.table.Extends t) : Learns g w { w with table := t } :=
  { Learns.refl g w with table := hext }

/-- The walker with other facts about expression `k`. -/
def withFact (w : Walker) (k : Nat) (f : Fact → Fact) : Walker :=
  { w with routine := { w.routine with facts := w.routine.facts.modify k f } }

theorem facts_withFact (k j : Nat) (f : Fact → Fact) :
    (withFact w k f).routine.facts[j]? =
      if k = j then w.routine.facts[j]?.map f else w.routine.facts[j]? :=
  Array.getElem?_modify

theorem Sane.withFact (hw : Sane g w)
    (hf : ∀ x : Fact, x.Valid w.table g.vars g.routines → (f x).Valid w.table g.vars g.routines) :
    Sane g (withFact w k f) :=
  { hw with
    tags := fun j hj => by simpa [Infer.withFact] using hw.tags j hj
    facts := fun j x hx => by
      rw [facts_withFact] at hx
      split at hx
      · obtain ⟨y, hy, rfl⟩ := Option.map_eq_some_iff.1 hx
        exact hf y (hw.facts j y hy)
      · exact hw.facts j x hx }

theorem exprTypes_withFact (k j : Nat) (f : Fact → Fact) (hf : ∀ x : Fact, x.types ≤ (f x).types) :
    w.routine.exprTypes j ≤ (withFact w k f).routine.exprTypes j := by
  unfold Routine.exprTypes
  rw [facts_withFact]
  split
  · rcases w.routine.facts[j]? with _ | x
    · exact le_refl _
    · exact hf x
  · exact le_refl _

theorem target?_withFact (k j : Nat) (f : Fact → Fact) (hf : ∀ x : Fact, (f x).target = x.target) :
    (withFact w k f).routine.target? j = w.routine.target? j := by
  unfold Routine.target?
  rw [facts_withFact]
  split
  · rcases w.routine.facts[j]? with _ | x
    · rfl
    · exact hf x
  · rfl

theorem notes_withFact (hk : g.tags k) (hf : ∀ x : Fact, x.types ≤ (f x).types)
    (ht : ∀ j, ¬ g.due j → (withFact w k f).routine.target? j = w.routine.target? j) :
    Learns g w (withFact w k f) :=
  { Learns.refl g w with
    size := Array.size_modify
    others := fun j hj => by
      rw [facts_withFact, if_neg]
      rintro rfl
      exact hj hk
    types := fun j => exprTypes_withFact k j f hf
    targets := fun j hj => .inl (ht j hj)
    frame := rfl }

/-- Only the use and the aliases of variables change. -/
theorem Sane.withScope (hw : Sane g w) (used aliased : VarSet) :
    Sane g { w with routine := { w.routine with
      scope := { w.routine.scope with used, aliased } } } :=
  { hw with }

theorem learns_withScope (used aliased : VarSet) :
    Learns g w { w with routine := { w.routine with
      scope := { w.routine.scope with used, aliased } } } :=
  { Learns.refl g w with frame := rfl }

end Parts

/-! ### The steps walks are made of -/

section Steps

variable {g : Place} {w : Walker} {k var : Nat} {s : State} {name : String}

theorem Runs.ofState {f : State → Walk β} {R : β → Walker → Prop} (h : Runs g (f w.state) w R) :
    Runs g (getState >>= f) w R := h

theorem Runs.ofTable {f : ShapeTable → Walk β} {R : β → Walker → Prop} (h : Runs g (f w.table) w R) :
    Runs g (getTable >>= f) w R := h

theorem setState_runs (hw : Sane g w) (hfits : State.Fits g.routine g.vars s)
    (hknown : State.Known w.table s) :
    Runs g (setState s) w fun _ w' => w' = { w with state := s } :=
  ⟨hw.withState hfits hknown, learns_withState s, rfl⟩

theorem modifyState_runs (hw : Sane g w) {f : State → State}
    (hfits : State.Fits g.routine g.vars (f w.state)) (hknown : State.Known w.table (f w.state)) :
    Runs g (modifyState f) w fun _ _ => True :=
  ⟨hw.withState hfits hknown, learns_withState _, trivial⟩

theorem joinWith_runs (hw : Sane g w) (hfits : State.Fits g.routine g.vars s)
    (hknown : State.Known w.table s) : Runs g (joinWith s) w fun _ _ => True := by
  obtain ⟨c, hc, hcfits, -⟩ := State.join_spec hfits hw.fits
  have hcknown := hknown.join hw.known hw.table hfits hw.fits hc
  refine .of_ok (a := ()) (u := { w with state := c }) ?_
    ⟨hw.withState hcfits hcknown, learns_withState c, trivial⟩
  show (do setState (← ofExcept (s.join (← getState))) : Walk Unit) w = _
  rw [show (do setState (← ofExcept (s.join (← getState))) : Walk Unit) w =
    (ofExcept (s.join w.state) >>= setState) w from rfl, hc]
  rfl

theorem intern_runs (hw : Sane g w) {f : ShapeTable → TypeSet × ShapeTable}
    (hf : (f w.table).2.Valid ∧ w.table.Extends (f w.table).2 ∧ (f w.table).2.Knows (f w.table).1) :
    Runs g (intern f) w fun s w' => w'.table.Knows s :=
  ⟨hw.withTable hf.1 hf.2.1, learns_withTable hf.2.1, hf.2.2⟩

theorem inspect_runs (hw : Sane g w) {f : ShapeTable → Option TypeSet}
    (hf : ∃ s, f w.table = some s ∧ w.table.Knows s) :
    Runs g (inspect f) w fun s w' => w'.table.Knows s := by
  obtain ⟨s, hs, hknown⟩ := hf
  refine .of_ok (a := s) (u := w) ?_ ⟨hw, .refl g w, hknown⟩
  rw [inspect, getTable_bind, hs]
  rfl

theorem elementOf_runs (hw : Sane g w) {s : TypeSet} (hs : w.table.Knows s) :
    Runs g (elementOf s) w fun r w' => w'.table.Knows r :=
  inspect_runs hw (ShapeTable.element_spec hw.table hs)

/-! Facts -/

theorem record_eq (hk : k < w.routine.facts.size) (s : TypeSet) :
    record k s w = .ok () (withFact w k fun x => { x with types := x.types ∪ s }) := by
  show (if k < w.routine.facts.size then _ else _ : Walk Unit) w = _
  rw [if_pos hk]
  rfl

theorem of_record {s : TypeSet} {u : Unit} (h : record k s w = .ok u w') :
    k < w.routine.facts.size ∧ w' = withFact w k fun x => { x with types := x.types ∪ s } := by
  by_cases hk : k < w.routine.facts.size
  · rw [record_eq hk] at h
    cases h
    exact ⟨hk, rfl⟩
  · rw [show record k s w = (if k < w.routine.facts.size then _ else _ : Walk Unit) w from rfl,
      if_neg hk] at h
    cases h

theorem le_exprTypes_record (hk : k < w.routine.facts.size) (s : TypeSet) :
    s ≤ (withFact w k fun x => { x with types := x.types ∪ s }).routine.exprTypes k := by
  unfold Routine.exprTypes
  rw [facts_withFact, if_pos rfl, Array.getElem?_eq_getElem hk]
  exact le_union_right _ _

theorem record_runs (hw : Sane g w) (hk : g.tags k) {s : TypeSet} (hs : w.table.Knows s) :
    Runs g (record k s) w fun _ w' =>
      w' = withFact w k (fun x => { x with types := x.types ∪ s }) ∧ s ≤ w'.routine.exprTypes k := by
  refine .of_ok (record_eq (hw.tags k hk) s) ⟨hw.withFact fun x hx => ?_, ?_, rfl, ?_⟩
  · exact { hx with types := hx.types.union hs }
  · exact notes_withFact hk (fun x => le_union_left _ _)
      fun j _ => target?_withFact k j _ fun _ => rfl
  · exact le_exprTypes_record (hw.tags k hk) s

theorem recordedTypes_runs (hw : Sane g w) (k : Nat) :
    Runs g (recordedTypes k) w fun s w' => w' = w ∧ w.table.Knows s := by
  refine ⟨hw, .refl g w, rfl, ?_⟩
  show w.table.Knows ((w.routine.facts[k]?.map (·.types)).getD .any)
  rcases hx : w.routine.facts[k]? with _ | x
  · exact ShapeTable.knows_any
  · exact (hw.facts k x hx).types

theorem noteRead_runs (hw : Sane g w) (hk : g.tags k) (hvar : var < g.vars) (p c : Bool) :
    Runs g (noteRead k var p c) w fun _ _ => True := by
  refine ⟨hw.withFact fun x hx => ?_, ?_, trivial⟩
  · refine { hx with read := fun r hr => ?_ }
    cases hr
    rcases hread : x.read with _ | s
    · exact hvar
    · exact hx.read s hread
  · exact notes_withFact hk (fun x => le_refl _)
      fun j _ => target?_withFact k j _ fun _ => rfl

/-! Variables -/

theorem useVar_runs (hw : Sane g w) (hname : name ∈ g.names) :
    Runs g (useVar name) w fun i w' => i = g.names.idxOf name ∧ i < g.vars ∧ w'.state = w.state ∧
      w'.table = w.table := by
  have hmem : name ∈ w.routine.scope.names := hw.names ▸ hname
  have huse := Scope.use_eq hmem
  have hrun : useVar name w = .ok (g.names.idxOf name) { w with routine := { w.routine with
      scope := { w.routine.scope with
        used := w.routine.scope.used.insert (g.names.idxOf name)
        aliased := w.routine.scope.aliased } } } := by
    show EStateM.Result.ok (w.routine.scope.use name).1 { w with routine := { w.routine with
      scope := (w.routine.scope.use name).2 } } = _
    rw [huse, hw.names]
  refine .of_ok hrun ⟨hw.withScope _ _, learns_withScope _ _, rfl, ?_, rfl, rfl⟩
  exact List.idxOf_lt_length_iff.2 hname

/-- The variables an expression names are variables of the routine. -/
def Named (g : Place) (e : Expr Nat) : Prop := ∀ name ∈ e.varName?, name ∈ g.names

theorem varOf?_runs (hw : Sane g w) {e : Expr Nat} (he : Named g e) :
    Runs g (varOf? e) w fun o w' => (∀ i ∈ o, i < g.vars) ∧ w'.state = w.state ∧
      w'.table = w.table := by
  unfold varOf?
  rcases hn : e.varName? with _ | name
  · exact .pure hw ⟨by simp, rfl, rfl⟩
  · refine Runs.map ((useVar_runs hw (he name hn)).mono fun i w' _ _ hi => ?_)
    refine ⟨?_, hi.2.2.1, hi.2.2.2⟩
    rintro j ⟨⟩
    exact hi.2.1

theorem markAliased_runs (hw : Sane g w) (hvar : var < g.vars) :
    Runs g (markAliased var) w fun _ w' => w'.state = w.state ∧ w'.table = w.table := by
  have hlt : var < w.routine.scope.size := by
    rw [← Scope.length_names, hw.names]
    exact hvar
  refine .of_ok (a := ()) (u := { w with routine := { w.routine with
      scope := { w.routine.scope with
        used := w.routine.scope.used, aliased := w.routine.scope.aliased.insert var } } }) ?_
    ⟨hw.withScope _ _, learns_withScope _ _, rfl, rfl⟩
  have hmark : w.routine.scope.markAliased var =
      .ok { w.routine.scope with aliased := w.routine.scope.aliased.insert var } := by
    rw [Scope.markAliased, Scope.get_eq hlt]
    rfl
  show (ofExcept (do return ((), ← w.routine.scope.markAliased var)) >>= fun p => _ : Walk Unit) w = _
  rw [hmark]
  rfl

theorem knows_current (hw : Sane g w) (var : Nat) : w.table.Knows (current w.state var) :=
  hw.known.current hw.table var

theorem readVariable_runs (hw : Sane g w) (hk : g.tags k) (hname : name ∈ g.names) (quiet : Bool) :
    Runs g (readVariable k name quiet) w fun s w' => w'.table.Knows s := by
  refine (useVar_runs hw hname).bind fun var w1 hw1 _ hvar => ?_
  refine .ofState ?_
  cases quiet
  · refine (noteRead_runs hw1 hk hvar.2.1 _ _).bind fun _ w3 hw3 hl _ => ?_
    exact .pure hw3 ((knows_current hw1 var).mono hl.table)
  · exact .pure hw1 (knows_current hw1 var)

theorem addFlags_runs (hw : Sane g w) (f : Flags) : Runs g (addFlags f) w fun _ _ => True :=
  ⟨{ hw with }, { Learns.refl g w with frame := rfl }, trivial⟩

end Steps

/-! ### Walks to compute -/

/-- A program without routines. -/
def bareSetting : Setting :=
  { directory := {}, resolver := .mostSpecific, signatures := [], block := 0 }

/-- A walker in a routine of `size` expressions, all of whose variables have values of the given
types. -/
def walkerWith (table : ShapeTable) (size : Nat) (vars : List (String × TypeSet)) : Walker where
  table
  calls := {}
  routine :=
    { id := 1, name := "main", params := [], graph := default, exported := false
      scope := { id := 1, vars := vars.map fun v => { name := v.1 } }
      facts := .replicate size {}, inputs := #[], observed := [] }
  state :=
    { scope := 1, slots := vars.map (·.2)
      possibly := (List.range vars.length).foldl VarSet.insert .empty
      certainly := (List.range vars.length).foldl VarSet.insert .empty }

end Infer
end ShapeFlow
