/-
# Overloads

A call is bound by its name and the types of its arguments, to one of the routines
of the name.  Their signatures matter only for what they take, not for what they
return.  As routines are added, the candidates of a name grow at the end: what a
call was bound to among the first routines can be told later on.

Key definitions: `Program.Later`, `Program.Listed`.
Key theorems: `Infer.Setting.bind_eq`, `Act.later`, `Act.listed`.
-/
import ShapeFlow.Proofs.Evolution
import ShapeFlow.Proofs.Histories

namespace ShapeFlow

open ShapeFlow.Flow Infer List

/-! ### What resolving looks at -/

/-- The signature without what resolving does not look at. -/
def Signature.bare (s : Signature) : Signature := { s with byRef := [], returns := .void }

theorem Resolver.mostSpecific_bare (cands : List Signature) (args : List TypeSet) :
    mostSpecific (cands.map Signature.bare) args = mostSpecific cands args := by
  have happlicable : ∀ l : List Signature, (l.map Signature.bare).filter (·.applies args) =
      (l.filter (·.applies args)).map Signature.bare := fun l => by
    rw [filter_map]
    rfl
  have hbest : ∀ l l' : List Signature, (l.map Signature.bare).filter
      (fun s => (l'.map Signature.bare).all s.atLeastAsSpecific) =
        (l.filter fun s => l'.all s.atLeastAsSpecific).map Signature.bare := fun l l' => by
    rw [filter_map]
    simp only [all_map]
    rfl
  have hids : ∀ l : List Signature, (l.map Signature.bare).map (·.id) = l.map (·.id) := fun l => by
    rw [map_map]
    rfl
  match cands with
  | [] => rfl
  | [only] => rfl
  | a :: b :: rest =>
    rw [map_cons, map_cons]
    unfold mostSpecific
    simp only
    rw [← map_cons, ← map_cons, happlicable, hbest]
    rcases filter _ (filter _ (a :: b :: rest)) with _ | ⟨best, _ | ⟨next, others⟩⟩
    · simp only [map_nil, isEmpty_map, ← apply_ite (map Signature.bare), hids]
    · rfl
    · simp only [map_cons, isEmpty_map]
      rw [← map_cons, ← map_cons, ← apply_ite (map Signature.bare), hids]

namespace Infer

variable {c c' : Setting} {name : String}

/-- The signatures of the routines of a name. -/
def Setting.named (c : Setting) (name : String) : List Signature :=
  (c.directory.candidates name).filterMap (c.signatures[·]?)

theorem Setting.bind_congr (hc : c.resolver = .mostSpecific) (hc' : c'.resolver = .mostSpecific)
    (h : (c'.named name).map Signature.bare = (c.named name).map Signature.bare) (types : Tuple) :
    c'.bind name types = c.bind name types := by
  have hempty : (c'.named name).isEmpty = (c.named name).isEmpty := by
    rw [← isEmpty_map (f := Signature.bare), h, isEmpty_map]
  have hresolve : c'.resolver (c'.named name) types = c.resolver (c.named name) types := by
    rw [hc, hc', ← Resolver.mostSpecific_bare, h, Resolver.mostSpecific_bare]
  show (if (c'.named name).isEmpty then _ else c'.resolver (c'.named name) types) =
    if (c.named name).isEmpty then _ else c.resolver (c.named name) types
  rw [hempty, hresolve]

theorem Setting.bind_eq {n : Nat} (hc : c.resolver = .mostSpecific)
    (hc' : c'.resolver = .mostSpecific)
    (hnames : (c'.directory.candidates name).filter (· < n) =
      (c.directory.candidates name).filter (· < n)) (hlen : c.signatures.length ≤ n)
    (hlen' : c'.signatures.length ≤ n)
    (hsigs : ∀ i, i < n → (c'.signatures[i]?).map Signature.bare =
      (c.signatures[i]?).map Signature.bare) (types : Tuple) :
    c'.bind name types = c.bind name types := by
  have hwithin : ∀ c : Setting, c.signatures.length ≤ n → (c.named name).map Signature.bare =
      ((c.directory.candidates name).filter (· < n)).filterMap
        fun i => (c.signatures[i]?).map Signature.bare := by
    intro c hlen
    rw [Setting.named, map_filterMap, filterMap_filter]
    refine filterMap_congr fun i _ => ?_
    split
    next => rfl
    next hi =>
      rw [getElem?_eq_none (by simp at hi; omega)]
      rfl
  refine Setting.bind_congr hc hc' ?_ types
  rw [hwithin c hlen, hwithin c' hlen', hnames]
  refine filterMap_congr fun i hi => hsigs i ?_
  simpa using (mem_filter.1 hi).2

end Infer

/-! ### Names -/

namespace Directory

theorem lookup_enter {β : Type} [BEq β] (key x : String) (b : β) :
    ∀ l : List (String × List β), ((enter key b l).lookup x).getD [] =
      if x = key then
        if ((l.lookup x).getD []).contains b then (l.lookup x).getD [] else (l.lookup x).getD [] ++ [b]
      else (l.lookup x).getD []
  | [] => by
    rw [enter, lookup_cons]
    by_cases hx : x = key
    · simp [hx]
    · simp [hx, beq_false_of_ne hx]
  | (k, bs) :: l => by
    have ih := lookup_enter key x b l
    rw [enter]
    by_cases hk : k = key
    · subst hk
      by_cases hx : x = k
      · simp [hx]
      · simp [hx, lookup_cons, beq_false_of_ne hx]
    · rw [if_neg hk]
      by_cases hx : x = k
      · subst hx
        simp [hk]
      · simp only [lookup_cons, beq_false_of_ne hx]
        exact ih

theorem candidates_declareRoutine {d : Directory} {id : Nat} (name x : String)
    (h : id ∉ d.candidates x) : (d.declareRoutine name id).candidates x =
      if x.toLower = name.toLower then d.candidates x ++ [id] else d.candidates x := by
  unfold candidates at h ⊢
  rw [declareRoutine, lookup_enter]
  simp only [contains_eq_mem, h, decide_false, Bool.false_eq_true, if_false]

end Directory

namespace Program

variable {p p' : Program}

/-- The program has come about from the other by adding routines and finding out more. -/
structure Later (p p' : Program) : Prop where
  size : p.size ≤ p'.size
  resolver : p'.resolver = p.resolver
  names : ∀ x, (p'.overloads x).filter (· < p.size) = (p.overloads x).filter (· < p.size)
  routines : ∀ (i : Nat) (r : Routine), p.routines[i]? = some r →
    ∃ r', p'.routines[i]? = some r' ∧ r.SameText r' ∧ ∀ c ∈ r.applied, c ∈ r'.applied

theorem signature_bare {r r' : Routine} (h : r.SameText r') :
    r'.signature.bare = r.signature.bare := by
  unfold Routine.signature Routine.paramTypes Signature.bare
  simp only [h.id, h.params, h.fixed]

theorem Later.bind_eq (h : Later p p') (hp : p.resolver = .mostSpecific) {n : Nat}
    (hn : n ≤ p.size) (b b' : Nat) (name : String) (types : Tuple) :
    (p'.setting (p'.signatures.take n) b').bind name types =
      (p.setting (p.signatures.take n) b).bind name types := by
  have htake : ∀ q : Program, (q.signatures.take n).length ≤ n := fun q => length_take_le n _
  have hnames : ∀ x, (p'.overloads x).filter (· < n) = (p.overloads x).filter (· < n) := by
    intro x
    have hle : ∀ l : List Nat, (l.filter (· < p.size)).filter (· < n) = l.filter (· < n) := by
      intro l
      rw [filter_filter]
      refine filter_congr fun i _ => ?_
      simp only [Bool.and_eq_left_iff_imp, decide_eq_true_eq]
      omega
    rw [← hle, h.names, hle]
  refine Setting.bind_eq (n := n) ?_ ?_ ?_ ?_ ?_ (fun i hi => ?_) types
  · exact hp
  · exact h.resolver.trans hp
  · exact hnames name
  · exact htake p
  · exact htake p'
  obtain ⟨r, hr⟩ : ∃ r, p.routines[i]? = some r :=
    ⟨_, getElem?_eq_getElem (Nat.lt_of_lt_of_le hi hn)⟩
  obtain ⟨r', hr', htext, -⟩ := h.routines i r hr
  show (p'.signatures.take n)[i]?.map Signature.bare = (p.signatures.take n)[i]?.map Signature.bare
  rw [getElem?_take_of_lt hi, getElem?_take_of_lt hi]
  simp [signatures, hr, hr', signature_bare htext]

/-- What was bound in the middle of a round is what all routines give. -/
theorem bind_sigs {m : Mid} (hm : m.Tidy) (hp : m.program.resolver = .mostSpecific) (b : Nat)
    (name : String) (types : Tuple) :
    (m.program.setting m.sigs b).bind name types =
      (m.program.setting (m.program.signatures.take m.program.size) b).bind name types := by
  refine Setting.bind_eq (n := m.program.size) ?_ ?_ ?_ ?_ ?_ (fun i hi => ?_) types
  · exact hp
  · exact hp
  · rfl
  · exact length_take_le ..
  · exact hm.count.le
  obtain ⟨s, hs⟩ : ∃ s, m.sigs[i]? = some s :=
    ⟨_, getElem?_eq_getElem (by rw [hm.count]; exact hi)⟩
  obtain ⟨r, hr, heq, -⟩ := hm.sigs i s hs
  show m.sigs[i]?.map Signature.bare = (m.program.signatures.take m.program.size)[i]?.map Signature.bare
  rw [getElem?_take_of_lt hi, hs, heq]
  simp [signatures, hr, Signature.bare]

/-- Every routine is listed under its name, and a clone after a routine of the same name. -/
structure Listed (p : Program) : Prop where
  listed : ∀ (i : Nat) (r : Routine), p.routines[i]? = some r → i ∈ p.overloads r.name
  named : ∀ (x : String), ∀ i ∈ p.overloads x, ∃ r, p.routines[i]? = some r ∧
    r.name.toLower = x.toLower
  clones : ∀ (i : Nat) (r : Routine), p.routines[i]? = some r → r.fixed ≠ none →
    ∃ j s, j < i ∧ p.routines[j]? = some s ∧ s.name = r.name

theorem listed_empty : Listed .empty where
  listed i r hr := by cases hr
  named x i hi := by cases hi
  clones i r hr := by cases hr

end Program

variable {m m' : Mid} {p p' : Program}

theorem Routine.Evolves.applied {i : Nat} {r r' : Routine} (h : r.Evolves m r') (hm : m.Kept)
    (hr : m.program.routines[i]? = some r) : ∀ c ∈ r.applied, c ∈ r'.applied := by
  have hvalid := hm.program.valid hr
  cases h with
  | stir hstirs =>
    cases hstirs with
    | tweak ht =>
      cases ht with
      | queue hq => rw [hq.frame]; exact fun c hc => hc
      | mark hmark => exact hmark.grown
      | seed hs => rw [(hvalid.seed_flows hm.program.table hs).2.frame]; exact fun c hc => hc
    | forget observed heq => subst heq; exact fun c hc => hc
    | observe _ heq => subst heq; exact fun c hc => hc
    | enter hobserving hseed =>
      rw [(hobserving.seed_flows hm.program.table hseed).2.frame]
      exact fun c hc => hc
  | walk _ _ _ hroutine hwalk heq =>
    rw [heq, hwalk.advances.frame, hroutine]
    exact fun c hc => hc

theorem overloads_push (hp : p.Kept) (r : Routine) (x : String) :
    (p.push r).overloads x =
      if x.toLower = r.name.toLower then p.overloads x ++ [p.size] else p.overloads x :=
  Directory.candidates_declareRoutine r.name x fun h =>
    Nat.lt_irrefl _ (hp.directory x p.size h)

theorem Program.Listed.same (h : p.Listed) (hnames : ∀ x, p'.overloads x = p.overloads x)
    (hback : ∀ (i : Nat) (r' : Routine), p'.routines[i]? = some r' →
      ∃ r, p.routines[i]? = some r ∧ r.SameText r')
    (hforth : ∀ (i : Nat) (r : Routine), p.routines[i]? = some r →
      ∃ r', p'.routines[i]? = some r' ∧ r.SameText r') : p'.Listed where
  listed i r' hr' := by
    obtain ⟨r, hr, htext⟩ := hback i r' hr'
    rw [hnames, htext.name]
    exact h.listed i r hr
  named x i hi := by
    rw [hnames] at hi
    obtain ⟨r, hr, hname⟩ := h.named x i hi
    obtain ⟨r', hr', htext⟩ := hforth i r hr
    exact ⟨r', hr', by rw [htext.name, hname]⟩
  clones i r' hr' hfixed := by
    obtain ⟨r, hr, htext⟩ := hback i r' hr'
    obtain ⟨j, s, hj, hs, hname⟩ := h.clones i r hr (htext.fixed ▸ hfixed)
    obtain ⟨s', hs', htext'⟩ := hforth j s hs
    exact ⟨j, s', hj, hs', by rw [htext'.name, hname, htext.name]⟩

theorem Program.Listed.push (h : p.Listed) (hp : p.Kept) {r : Routine} (hr : p.Derived r) :
    (p.push r).Listed := by
  have hold : ∀ {i : Nat} {s : Routine}, p.routines[i]? = some s → (p.push r).routines[i]? = some s :=
    fun {i s} hs => (getElem?_append_left (lt_of_getElem? hs)).trans hs
  have hnames : ∀ x i, i ∈ p.overloads x → i ∈ (p.push r).overloads x := by
    intro x i hi
    rw [overloads_push hp]
    split
    · exact mem_append_left _ hi
    · exact hi
  refine ⟨fun i s hs => ?_, fun x i hi => ?_, fun i s hs hfixed => ?_⟩
  · rcases getElem?_push hs with hs | ⟨rfl, rfl⟩
    · exact hnames _ i (h.listed i s hs)
    · rw [overloads_push hp, if_pos rfl]
      exact mem_append_right _ (mem_singleton_self _)
  · have hcases : i ∈ p.overloads x ∨ x.toLower = r.name.toLower ∧ i = p.size := by
      rw [overloads_push hp] at hi
      split at hi
      next hx => exact (mem_append.1 hi).imp_right fun hi => ⟨hx, mem_singleton.1 hi⟩
      next => exact .inl hi
    rcases hcases with hi | ⟨hx, rfl⟩
    · obtain ⟨s, hs, hname⟩ := h.named x i hi
      exact ⟨s, hold hs, hname⟩
    · exact ⟨r, getElem?_concat_length, hx.symm⟩
  · rcases getElem?_push hs with hs | ⟨rfl, rfl⟩
    · obtain ⟨j, q, hj, hq, hname⟩ := h.clones i s hs hfixed
      exact ⟨j, q, hj, hold hq, hname⟩
    · rcases hr with ⟨-, hnone⟩ | ⟨j, q, tuple, hq, rfl, -⟩
      · exact absurd hnone hfixed
      · exact ⟨j, q, (lt_of_getElem? hq), hold hq, rfl⟩

theorem Act.names (h : Act m m') (hm : m.Kept) :
    (∀ x, m'.program.overloads x = m.program.overloads x) ∧
        m'.program.size = m.program.size ∧ m'.program.resolver = m.program.resolver ∨
      ∃ r, m.program.Derived r ∧ m'.program = m.program.push r := by
  have hsame : ∀ {p p' : Program}, p' = { p with
      table := p'.table, routines := p'.routines, calls := p'.calls
      diagnostics := p'.diagnostics, outcome := p'.outcome } → p'.size = p.size →
      (∀ x, p'.overloads x = p.overloads x) ∧ p'.size = p.size ∧ p'.resolver = p.resolver := by
    intro p p' hframe hsize
    refine ⟨fun x => ?_, hsize, by rw [hframe]⟩
    unfold Program.overloads
    rw [hframe]
  cases h with
  | change ha =>
    cases ha with
    | relabel | extend => exact .inl (hsame rfl rfl)
    | tweak he => exact .inl (hsame (by rw [Mid.of, he.frame]; rfl) he.size)
    | push _ hr => exact .inr ⟨_, hr, rfl⟩
  | walk => exact .inl (hsame rfl length_set)
  | report hrun =>
    obtain ⟨r, r', -, rfl, -⟩ := Program.report_put hrun
    exact .inl (hsame rfl (Program.size_put ..))
  | @notify p sigs _ =>
    have hpiles := Program.notify_piles sigs p
    exact .inl (hsame (by rw [Mid.of, hpiles.frame]) hpiles.size)

/-- **Acts only add routines.** -/
theorem Act.later (h : Act m m') (hm : m.Kept) : m.program.Later m'.program := by
  have hroutines : ∀ (i : Nat) (r : Routine), m.program.routines[i]? = some r →
      ∃ r', m'.program.routines[i]? = some r' ∧ r.SameText r' ∧ ∀ c ∈ r.applied, c ∈ r'.applied := by
    intro i r hr
    obtain ⟨r', hr', hevolves⟩ := (h.move.evolves hm).old i r hr
    exact ⟨r', hr', hevolves.text hm hr, hevolves.applied hm hr⟩
  rcases h.names hm with ⟨hnames, hsize, hresolver⟩ | ⟨r, -, hpush⟩
  · exact ⟨hsize.ge, hresolver, fun x => by rw [hnames], hroutines⟩
  · refine ⟨?_, by rw [hpush]; rfl, fun x => ?_, hroutines⟩
    · rw [hpush, Program.size_push]
      exact Nat.le_succ _
    · rw [hpush, overloads_push hm.program]
      split
      · rw [filter_append]
        simp
      · rfl

theorem Act.listed (h : Act m m') (hm : m.Kept) (hl : m.program.Listed) : m'.program.Listed := by
  rcases h.names hm with ⟨hnames, hsize, -⟩ | ⟨r, hr, hpush⟩
  · have hforth : ∀ (i : Nat) (r : Routine), m.program.routines[i]? = some r →
        ∃ r', m'.program.routines[i]? = some r' ∧ r.SameText r' := fun i r hr =>
      let ⟨r', hr', htext, _⟩ := (h.later hm).routines i r hr
      ⟨r', hr', htext⟩
    refine hl.same hnames (fun i r' hr' => ?_) hforth
    have hlt : i < m.program.size := hsize ▸ (lt_of_getElem? hr')
    obtain ⟨r, hr⟩ : ∃ r, m.program.routines[i]? = some r := ⟨_, getElem?_eq_getElem hlt⟩
    obtain ⟨s, hs, htext⟩ := hforth i r hr
    obtain rfl := Option.mem_unique hs hr'
    exact ⟨r, hr, htext⟩
  · rw [hpush]
    exact hl.push hm.program hr

end ShapeFlow
