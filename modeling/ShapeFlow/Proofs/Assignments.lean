/-
# What assignments leave behind

Types are added to what a variable has throughout a routine when a block is
left.  So what an assignment gives a variable gets there unless later code of the
block stores into the variable again: the last assignment to a variable in a
block is covered, in every block and at any time.

Key definitions: `Block.Last`, `Routine.Accounted`.
Key theorems: `Infer.block_covers`, `Program.History.assignment_covered`.
-/
import ShapeFlow.Proofs.Evolution
import ShapeFlow.Proofs.Histories
import ShapeFlow.Proofs.Landing

namespace ShapeFlow

open ShapeFlow.Flow Infer List

section Last

variable {α : Type}

namespace Expr

theorem mem_walk_trans {y z : Expr α} (e : Expr α) : y ∈ e.walk → z ∈ y.walk → z ∈ e.walk := by
  induction e using induct_operands with
  | _ e ih =>
  intro hy hz
  rcases mem_walk.1 hy with rfl | ⟨x, hx, hy⟩
  · exact hz
  · exact mem_walk_of_operand hx (ih x hx hy hz)

theorem mem_operands_of_conditions {e z : Expr α} (h : z ∈ e.conditions) : z ∈ e.operands := by
  unfold conditions at h
  split at h
  all_goals simp only [operands, mem_cons, not_mem_nil, or_false] at h ⊢
  all_goals tauto

end Expr

/-- The expression of an operation, with the variables stored into after it. -/
def Op.evaluated : Op α → List (Expr α × List String)
  | .eval e => [(e, [])]
  | .static name init => init.toList.map (·, [name])
  | .global _ | .unset _ => []

/-- What the exit branches on. -/
def Exit.conditions : Exit α → List (Expr α)
  | .branch cond => [cond]
  | .fall | .each .. | .ret _ => []

namespace Block

/-- The expressions of a block whose outcome matters. -/
def conditions (b : Block α) : List (Expr α) :=
  b.exit.conditions ++ (b.roots.flatMap Expr.walk).flatMap Expr.conditions

/-- In the block, nothing after `a` stores into variable `name`. -/
inductive Last (name : String) (a : Expr α) (b : Block α) : Prop
  | op {before after : List (Op α)} {o : Op α} {e : Expr α} {later : List String} :
    b.ops = before ++ o :: after → (e, later) ∈ o.evaluated → name ∉ later → Expr.Last name a e →
    (∀ o' ∈ after, name ∉ o'.stored) → name ∉ b.exit.stored → Last name a b
  | exit {e : Expr α} : e ∈ b.exit.exprs → Expr.Last name a e → Last name a b

end Block

variable {e : Expr α}

theorem Op.exprs_of_evaluated {o : Op α} {later : List String} (h : (e, later) ∈ o.evaluated) :
    o.exprs = [e] := by
  cases o with
  | eval e' =>
    obtain ⟨rfl, -⟩ := Prod.mk.inj (mem_singleton.1 h)
    rfl
  | static name init =>
    obtain ⟨e', he', heq⟩ := mem_map.1 h
    obtain ⟨rfl, -⟩ := Prod.mk.inj heq
    obtain rfl := Option.mem_toList.1 he'
    rfl
  | global _ | unset _ => cases h

theorem Exit.exprs_of_mem {x : Exit α} (h : e ∈ x.exprs) : x.exprs = [e] := by
  cases x with
  | fall => cases h
  | branch | each =>
    obtain rfl := mem_singleton.1 h
    rfl
  | ret e' =>
    obtain rfl := Option.mem_toList.1 h
    rfl

theorem Block.Last.mem_walk {name : String} {a : Expr α} {b : Block α} (h : b.Last name a) :
    ∃ e ∈ b.roots, a ∈ e.walk := by
  cases h with
  | @op before after o e later hops hmem _ hlast =>
    refine ⟨e, mem_append_left _ (mem_flatMap.2 ⟨o, ?_, ?_⟩), hlast.mem_walk⟩
    · rw [hops]
      exact mem_append_right _ (.head _)
    · rw [Op.exprs_of_evaluated hmem]
      exact mem_singleton_self e
  | exit hmem hlast => exact ⟨_, mem_append_right _ hmem, hlast.mem_walk⟩

theorem Block.mem_walk_of_conditions {b : Block α} {z : Expr α} (h : z ∈ b.conditions) :
    ∃ e ∈ b.roots, z ∈ e.walk := by
  rcases mem_append.1 h with h | h
  · refine ⟨z, mem_append_right _ ?_, z.mem_walk_self⟩
    unfold Exit.conditions at h
    split at h
    next cond hexit =>
      rw [hexit]
      exact h
    all_goals cases h
  · obtain ⟨y, hy, hz⟩ := mem_flatMap.1 h
    obtain ⟨e, he, hye⟩ := mem_flatMap.1 hy
    exact ⟨e, he, Expr.mem_walk_trans e hye
      (Expr.mem_walk_of_operand (Expr.mem_operands_of_conditions hz) z.mem_walk_self)⟩

end Last

/-- Whatever is known of expression `k` is known of variable `i` throughout the routine, except
null if `N`. -/
def Routine.Given (r : Routine) (i k : Nat) (N : Prop) : Prop :=
  ∀ x ∈ r.exprTypes k, x ∈ r.merged i ∨ x = 0 ∧ N

theorem Routine.Given.spare {r r' : Routine} {i k : Nat} {N : Prop} (h : r.Given i k N)
    (hspares : r.Spares i k r') : r'.Given i k N := fun x hx =>
  (h x (hspares.types ▸ hx)).imp_left (hspares.merged.1 x)

namespace Infer

variable {r : Routine} {i k : Nat} {N : Prop} {c : Setting} {name : String} {o : Op Nat}
  {blk : Block Nat} {e value : Expr Nat}

/-! ### Through a block -/

/-- The variables of the block are those of the routine, and no two expressions have the same
number. -/
structure Suits (r : Routine) (blk : Block Nat) : Prop where
  ops : ∀ o ∈ blk.ops, ∀ n ∈ o.names, n ∈ r.scope.names
  exit : ∀ n ∈ blk.exit.names, n ∈ r.scope.names
  numbered : TagsUnique blk.roots

theorem Suits.mentions (h : Suits r blk) (he : e ∈ blk.roots) : Mentions r e := by
  rcases mem_append.1 he with he | he
  · obtain ⟨o, ho, he⟩ := mem_flatMap.1 he
    exact mentions_of_names fun n hn => h.ops o ho n (Op.names_of_exprs he n hn)
  · exact mentions_of_names fun n hn => h.exit n (Exit.names_of_exprs he n hn)

theorem Suits.mem_names {t : Nat} (h : Suits r blk)
    (hlast : blk.Last name (.assign k (.var t name) value)) : name ∈ r.scope.names := by
  obtain ⟨e, he, hwalk⟩ := hlast.mem_walk
  refine h.mentions he (.var t name) (Expr.mem_walk_trans e hwalk ?_) name rfl
  exact Expr.mem_walk_of_operand (.head _) (Expr.mem_walk_self _)

theorem op_apart (hnames : ∀ n ∈ o.names, n ∈ r.scope.names) (hk : ∀ e ∈ o.exprs, Avoids k e) :
    Keeps r i k (fun _ => True) (op c o) :=
  op_keeps tolerant_true hnames hk fun _ _ => harmless_true _

theorem op_safe (hname : name ∈ r.scope.names) (hnames : ∀ n ∈ o.names, n ∈ r.scope.names)
    (hk : ∀ e ∈ o.exprs, Avoids k e) (hstored : name ∉ o.stored) :
    Safe r (r.index name) k (op c o) := fun x =>
  op_keeps (tolerant_holds _ x) hnames hk fun _ hn =>
    harmless_holds (r.index_ne hname fun heq => hstored (heq ▸ hn))

theorem lands_useVar {β : Type} {n : String} (hn : n ∈ r.scope.names) {f : Nat → Walk β}
    (hf : Lands r i k N (f (r.index n))) : Lands r i k N (useVar n >>= f) := by
  intro M w hM hw hall
  refine .of_eq (bind_of_ok (useVar_eq hw hn)) ?_
  refine .imp (hf M _ hM ?_ ?_) fun _ _ h => ⟨⟨h.1.names, h.1.merged⟩, h.2⟩
  · exact hw
  · exact hall

theorem op_lands {later : List String} (hname : name ∈ r.scope.names)
    (hnames : ∀ n ∈ o.names, n ∈ r.scope.names) (hmem : (e, later) ∈ o.evaluated)
    (hlater : name ∉ later) (h : LandsIn r (r.index name) k N c e) :
    Lands r (r.index name) k N (op c o) := by
  cases o with
  | eval e' =>
    obtain ⟨rfl, -⟩ := Prod.mk.inj (mem_singleton.1 hmem)
    exact h.value.discard
  | static n init =>
    obtain ⟨e', he', heq⟩ := mem_map.1 hmem
    obtain ⟨rfl, rfl⟩ := Prod.mk.inj heq
    obtain rfl := Option.mem_toList.1 he'
    have hharmless := fun x => harmless_holds (i := r.index name) (x := x)
      (r.index_ne hname fun heq => hlater (heq ▸ mem_singleton_self n))
    rw [op_static]
    refine Lands.after (keeps_addFlags _) fun _ => ?_
    refine lands_useVar (hnames n (by simp [Op.names])) (h.value.safe fun first x => ?_)
    refine .bind (keeps_modifyRoutine fun _ => ⟨⟨rfl, TypeSet.le_refl _⟩, rfl⟩) fun _ => ?_
    refine keeps_getRoutine.bind fun r1 => (keeps_ofExcept _).bind fun held => ?_
    refine (keeps_keep _ _).bind fun _ => keeps_getRoutine.bind fun r2 => ?_
    exact keeps_modifyState fun s => (hharmless x).assign s _
  | global _ | unset _ => cases hmem

theorem ops_land {after : List (Op Nat)} (ho : Lands r i k N (op c o))
    (hafter : ∀ o' ∈ after, Safe r i k (op c o')) : ∀ {before : List (Op Nat)},
    (∀ o' ∈ before, Keeps r i k (fun _ => True) (op c o')) →
    Lands r i k N ((before ++ o :: after).forM (op c))
  | [], _ => ho.safe fun _ x => .forM fun o' ho' => hafter o' ho' x
  | o' :: _, h => Lands.after (h o' (.head _)) fun _ =>
      ops_land ho hafter fun o'' ho'' => h o'' (.tail _ ho'')

/-- The block is left in states that hold what is known of expression `k` beyond `M`. -/
def LeftWith (r r₀ : Routine) (i k : Nat) (M : Nat → Prop) (w : Walker) (yes no : State) : Prop :=
  w.routine.scope.names = r.scope.names ∧ r₀.Widens i w.routine ∧
    ∀ x ∈ w.routine.exprTypes k, M x ∨ yes.Holds i x ∨ no.Holds i x

variable {M : Nat → Prop} {r₀ : Routine} {w : Walker} {ex : Exit Nat}

theorem Arrives.mono {A B : Walker → State → State → Prop} (h : Arrives c A w ex)
    (hAB : ∀ w' yes no, A w' yes no → B w' yes no) : Arrives c B w ex := by
  cases ex with
  | fall => exact hAB w w.state w.state h
  | branch | each | ret => exact .imp h fun _ _ h => hAB _ _ _ h

theorem Arrives.all {ι : Type} {A : ι → Walker → State → State → Prop} (h : ∀ x, Arrives c (A x) w ex) :
    Arrives c (fun w' yes no => ∀ x, A x w' yes no) w ex := by
  cases ex with
  | fall => exact h
  | branch | each | ret => exact Yields.all h

/-- The expression of an exit keeps a property, at least on one of two ways out. -/
theorem arrives_keeps {P : State → Prop} (hw : SameVars r w)
    (hex : ∀ e ∈ ex.exprs, KeptBy r i k P c e) :
    Arrives c (fun w' yes no => w.routine.Spares i k w'.routine ∧ (P w.state → P yes ∨ P no)) w ex := by
  have hone : ∀ {β : Type} {m : Walk β}, Keeps r i k P m → Yields m w fun _ w' =>
      w.routine.Spares i k w'.routine ∧ (P w.state → P w'.state ∨ P w'.state) := fun hm =>
    (hm w hw).imp fun _ _ h => ⟨h.1, fun hP => .inl (h.2 hP)⟩
  cases ex with
  | fall => exact ⟨.refl i k _, .inl⟩
  | branch cond =>
    show Yields _ w _
    rw [← bind_pure (cond.meaning c).branchStates]
    exact (hex cond (by simp [Exit.exprs])).branchStates hw fun _ _ _ _ hspares hkept => ⟨hspares, hkept⟩
  | each source key value => exact hone (hex source (by simp [Exit.exprs])).value
  | ret e => exact hone (keeps_optValue fun e' he' => (hex e' (Option.mem_toList.2 he')).value)

theorem arrives_safe (hw : SameVars r w) (hwidens : r₀.Widens i w.routine)
    (hall : ∀ x ∈ w.routine.exprTypes k, M x ∨ w.state.Holds i x)
    (hex : ∀ e ∈ ex.exprs, Clear r i k c e) : Arrives c (LeftWith r r₀ i k M) w ex := by
  refine (Arrives.all fun x => arrives_keeps hw fun e he => hex e he x).mono fun w' yes no h => ?_
  have hspares := (h 0).1
  refine ⟨hspares.names.trans hw, hwidens.trans hspares.toWidens, fun x hx => ?_⟩
  exact (hall x (hspares.types ▸ hx)).imp_right (h x).2

theorem arrives_lands (hw : SameVars r w) (hwidens : r₀.Widens i w.routine)
    (hM : N → M 0) (hall : ∀ x ∈ w.routine.exprTypes k, M x) (he : e ∈ ex.exprs)
    (h : LandsIn r i k N c e) (hN : e ∈ ex.conditions → e.tag = k → N) :
    Arrives c (LeftWith r r₀ i k M) w ex := by
  have hvalue : Yields (e.meaning c).value w fun _ w' => LeftWith r r₀ i k M w' w'.state w'.state := by
    refine (h.value M w hM hw hall).imp fun _ w' h => ⟨h.1.names.trans hw, hwidens.trans h.1, ?_⟩
    exact fun x hx => (h.2 x hx).imp_right .inl
  cases ex with
  | fall => cases he
  | branch cond =>
    obtain rfl := mem_singleton.1 he
    have hassume := h.assume (hN (mem_singleton_self _))
    show Yields _ w _
    rw [← bind_pure (e.meaning c).branchStates]
    exact branchStates_lands (hassume _) (hassume _) hM hw hall fun yes no w' hw' hwidens' hlands =>
      ⟨hw', hwidens.trans hwidens', hlands⟩
  | each source key value =>
    obtain rfl := mem_singleton.1 he
    exact hvalue
  | ret e' =>
    obtain rfl := Option.mem_toList.1 he
    exact hvalue

theorem exit_given (hnames : ∀ n ∈ ex.names, n ∈ r.scope.names)
    (hM : ∀ x, M x → x ∈ r₀.merged i ∨ x = 0 ∧ N) (h : Arrives c (LeftWith r r₀ i k M) w ex) :
    Yields (exit c ex) w fun _ w' => w'.routine.Given i k N := by
  refine (exit_covers (i := i) (k := k) h hnames fun _ _ _ hleft => hleft.1).mono ?_ fun _ _ h => h
  rintro _ w' ⟨w1, yes, no, ⟨-, hwidens, hall⟩, hspares, hcovers⟩ x hx
  rcases hall x (hspares.types ▸ hx) with hx | hx
  · exact (hM x hx).imp_left fun hx => (hwidens.trans hspares.toWidens).merged.1 x hx
  · exact .inl (hcovers x hx)

variable {s : State} {a : Expr Nat}

theorem block_spares (hs : w.routine.input? c.block = some s)
    (hblk : w.routine.graph.blocks[c.block]? = some blk) (hsuits : Suits w.routine blk)
    (hk : ∀ e ∈ blk.roots, Avoids k e) :
    Yields (block c) w fun _ w' => w.routine.Spares i k w'.routine := by
  refine .of_eq (block_eq hs hblk) (setState_keeps ?_)
  have hops : Keeps w.routine i k (fun _ => True) (blk.ops.forM (op c)) := .forM fun o ho =>
    op_apart (hsuits.ops o ho) fun e he => hk e (mem_append_left _ (mem_flatMap.2 ⟨o, ho, he⟩))
  refine hops.andThen rfl fun _ w1 hw1 hspares1 _ => ?_
  have hexit : ∀ e ∈ blk.exit.exprs, Apart w.routine i k c e := fun e he =>
    apart (hsuits.mentions (mem_append_right _ he)) (hk e (mem_append_right _ he))
  refine (exit_covers (i := i) (k := k) (arrives_keeps hw1 hexit) hsuits.exit fun _ _ _ h => h.1.names.trans hw1).mono
    ?_ fun _ _ h => h
  rintro _ w' ⟨w2, -, -, ⟨hspares2, -⟩, hspares3, -⟩
  exact (hspares1.trans hspares2).trans hspares3

/-- **What the last assignment to a variable in a block gives it is with the variable** once
the block is left. -/
theorem block_covers {t : Nat} (ha : a = .assign k (.var t name) value)
    (hs : w.routine.input? c.block = some s) (hblk : w.routine.graph.blocks[c.block]? = some blk)
    (hsuits : Suits w.routine blk) (hlast : blk.Last name a)
    (hN : ∀ z ∈ blk.conditions, z.tag = k → N) (h : w.routine.Given (w.routine.index name) k N) :
    Yields (block c) w fun _ w' => w'.routine.Given (w.routine.index name) k N := by
  have hwalked : ∀ e ∈ blk.roots, ∀ y ∈ e.walk, ∀ z ∈ y.conditions, z.tag = k → N :=
    fun e he y hy z hz => hN z (mem_append_right _
      (mem_flatMap.2 ⟨y, mem_flatMap.2 ⟨e, he, hy⟩, hz⟩))
  have hname : name ∈ w.routine.scope.names := hsuits.mem_names (ha ▸ hlast)
  -- the other expressions have nothing to do with the assignment
  have hround : ∀ {e before after}, blk.roots = before ++ e :: after → Expr.Last name a e →
      LandsIn w.routine (w.routine.index name) k N c e ∧ ∀ y ∈ before ++ after, Avoids k y := by
    intro e before after hroots hlast
    have hroot : e ∈ blk.roots := hroots ▸ mem_append_right _ (.head _)
    have havoids := (hroots ▸ hsuits.numbered).avoids hlast.mem_walk
    rw [ha] at havoids
    exact ⟨landsIn_of_last ha hlast hname (hsuits.mentions hroot) (hsuits.numbered.of_mem hroot)
      (hwalked e hroot), havoids⟩
  refine .of_eq (block_eq hs hblk) (setState_keeps ?_)
  cases hlast with
  | @op before after o e later hops hmem hlater hlast hafter hexit =>
    have ho : o ∈ blk.ops := hops ▸ mem_append_right _ (.head _)
    have hexprs := Op.exprs_of_evaluated hmem
    have hroots : blk.roots =
        before.flatMap Op.exprs ++ e :: (after.flatMap Op.exprs ++ blk.exit.exprs) := by
      rw [Block.roots, hops, flatMap_append, flatMap_cons, hexprs]
      simp
    obtain ⟨hlands, havoids⟩ := hround hroots hlast
    have hlandsOps : Lands w.routine (w.routine.index name) k N (blk.ops.forM (op c)) := by
      rw [hops]
      refine ops_land (op_lands hname (hsuits.ops o ho) hmem hlater hlands) (fun o' ho' => ?_)
        fun o' ho' => ?_
      · refine op_safe hname (hsuits.ops o' (by simp [hops, ho'])) (fun e' he' => ?_) (hafter o' ho')
        exact havoids e' (mem_append_right _ (mem_append_left _
          (mem_flatMap.2 ⟨o', ho', he'⟩)))
      · refine op_apart (hsuits.ops o' (by simp [hops, ho'])) fun e' he' => ?_
        exact havoids e' (mem_append_left _ (mem_flatMap.2 ⟨o', ho', he'⟩))
    refine hlandsOps.andThen (M := fun x => x ∈ w.routine.merged (w.routine.index name) ∨ x = 0 ∧ N)
      (fun hN => .inr ⟨rfl, hN⟩) rfl h fun _ w1 hw1 hwidens hall => ?_
    refine exit_given hsuits.exit (fun _ hx => hx) (arrives_safe hw1 hwidens hall fun e' he' => ?_)
    refine clear hname (hsuits.mentions (mem_append_right _ he')) (havoids e' (by simp [he'])) fun hstored => ?_
    exact hexit (mem_flatMap.2 ⟨e', he', hstored⟩)
  | @exit e he hlast =>
    have hroots : blk.roots = blk.ops.flatMap Op.exprs ++ e :: [] := by
      rw [Block.roots, Exit.exprs_of_mem he]
    obtain ⟨hlands, havoids⟩ := hround hroots hlast
    have hbefore : Keeps w.routine (w.routine.index name) k (fun _ => True) (blk.ops.forM (op c)) :=
      .forM fun o ho => op_apart (hsuits.ops o ho) fun e' he' =>
        havoids e' (mem_append_left _ (mem_flatMap.2 ⟨o, ho, he'⟩))
    refine hbefore.andThen rfl fun _ w1 hw1 hspares _ => ?_
    refine exit_given (M := fun x => x ∈ w.routine.merged (w.routine.index name) ∨ x = 0 ∧ N)
      hsuits.exit (fun _ hx => hx) ?_
    exact arrives_lands hw1 hspares.toWidens (fun hN => .inr ⟨rfl, hN⟩)
      (fun x hx => h x (hspares.types ▸ hx)) he hlands fun hcond => hN e (mem_append_left _ hcond)

end Infer

/-! ### At any time -/

namespace Routine

variable {r r' : Routine}

theorem Valid.suits {t : ShapeTable} {n b : Nat} {blk : Block Nat} (h : r.Valid t n)
    (hblk : r.graph.blocks[b]? = some blk) : Suits r blk := by
  have hmem := mem_of_getElem? hblk
  refine ⟨fun o ho x hx => h.names x (Graph.names_of_op hmem ho hx),
    fun x hx => h.names x (Graph.names_of_exit hmem hx), ?_⟩
  obtain ⟨before, after, hsplit⟩ := append_of_mem hmem
  have hsub : blk.roots.Sublist r.graph.roots := by
    rw [Graph.roots, hsplit, flatMap_append, flatMap_cons]
    exact (sublist_append_left _ _).trans (sublist_append_right _ _)
  have hnodup : (r.graph.exprs.map Expr.tag).Nodup := h.graph.numbered.nodup_iff.2 nodup_range
  exact ((hsub.flatMap Expr.walk).map Expr.tag).nodup hnodup

/-- What an assignment has been found to give a variable is with that throughout the routine,
if nothing after it in its block stores into the variable. -/
def Accounted (r : Routine) : Prop :=
  ∀ (b k t : Nat) (blk : Block Nat) (name : String) (value : Expr Nat),
    r.graph.blocks[b]? = some blk → blk.Last name (.assign k (.var t name) value) →
    r.Given (r.index name) k (.assign k (.var t name) value ∈ blk.conditions)

theorem accounted_of_blank {n : Nat} (h : r.facts = Array.replicate n {}) : r.Accounted := by
  intro b k t blk name value _ _ x hx
  have hvoid : r.exprTypes k = .void := by
    unfold exprTypes
    rw [h, Array.getElem?_replicate]
    split <;> rfl
  rw [hvoid] at hx
  exact absurd hx (TypeSet.not_mem_void x)

theorem Accounted.congr (h : r.Accounted) (hgraph : r'.graph = r.graph) (hscope : r'.scope = r.scope)
    (hfacts : r'.facts = r.facts) : r'.Accounted := by
  unfold Accounted Given index merged exprTypes at *
  rw [hgraph, hscope, hfacts]
  exact h

theorem Accounted.walk {c : Setting} {w w' : Walker} (h : w.routine.Accounted) (hwalk : Walks c w w') :
    w'.routine.Accounted := by
  intro b k t blk name value hblk hlast
  have hvalid := hwalk.before.routine
  have hgrows := hwalk.advances.toGrows
  have hindex : w'.routine.index name = w.routine.index name := by rw [index, index, hgrows.names]
  rw [hgrows.graph] at hblk
  rw [hindex]
  obtain ⟨s, hs⟩ := Option.isSome_iff_exists.1 hwalk.here
  obtain ⟨blk', hblk'⟩ : ∃ blk', w.routine.graph.blocks[c.block]? = some blk' :=
    ⟨_, getElem?_eq_getElem (hvalid.graph.reach_lt (hvalid.reach _ hwalk.here))⟩
  have hhere := h b k t blk name value hblk hlast
  obtain ⟨e, he, hmem⟩ := hlast.mem_walk
  have hexpr := (Graph.mem_exprsOf hblk).2 ⟨e, he, hmem⟩
  by_cases hb : b = c.block
  · subst hb
    obtain rfl := Option.mem_unique hblk hblk'
    refine (block_covers rfl hs hblk (hvalid.suits hblk) hlast (fun z hz htag => ?_) hhere).ok hwalk.run
    -- a condition with the number of the assignment is the assignment
    obtain ⟨e', he', hz'⟩ := Block.mem_walk_of_conditions hz
    have hsame := hvalid.graph.expr_unique ((Graph.mem_exprsOf hblk).2 ⟨e', he', hz'⟩) hexpr htag
    exact hsame ▸ hz
  · refine hhere.spare ((block_spares hs hblk' (hvalid.suits hblk') fun e' he' z hz htag => ?_).ok hwalk.run)
    refine hb (hvalid.graph.tagsOf_unique (mem_map_of_mem hexpr) ?_)
    have hz' := mem_map_of_mem (f := Expr.tag) ((Graph.mem_exprsOf hblk').2 ⟨e', he', hz⟩)
    rwa [htag] at hz'

theorem Evolves.covered {m : Mid} {i : Nat} (h : r.Evolves m r') (hm : m.Kept)
    (hr : m.program.routines[i]? = some r) (hc : r.Accounted) : r'.Accounted := by
  cases h with
  | stir hstirs =>
    rcases hstirs.stands hm hr with hstands | ⟨observed, heq⟩
    · exact hc.congr hstands.graph hstands.scope hstands.facts
    · exact accounted_of_blank (n := r.graph.exprCount) (by rw [heq]; rfl)
  | walk _ _ _ hroutine hwalk heq =>
    subst heq
    refine Accounted.walk ?_ hwalk
    exact hc.congr (by rw [hroutine]) (by rw [hroutine]) (by rw [hroutine])

end Routine

theorem Routine.varTypes?_eq {r : Routine} {name : String} (h : name ∈ r.scope.names) :
    r.varTypes? name = some (r.merged (r.index name)) := by
  have hlt : r.index name < r.scope.vars.length := by
    rw [← length_map (f := Variable.name)]
    exact idxOf_lt_length_of_mem h
  unfold varTypes? merged
  rw [Scope.find?_eq h]
  show r.scope.vars[r.index name]? >>= _ = _
  rw [getElem?_eq_getElem hlt]
  rfl

/-- **The last assignment to a variable in a block is covered.**  Whatever has happened to a
program, what has been found for an assignment to a variable is part of what the variable has
throughout the routine, if nothing evaluated after the assignment in its block stores into the
variable again.  Where the assignment is itself a condition, null may be missing. -/
theorem Program.History.assignment_covered {p : Program} (h : p.History) {r : Routine}
    (hr : r ∈ p.routines) {b k t : Nat} {blk : Block Nat} (hblk : r.graph.blocks[b]? = some blk)
    {name : String} {value : Expr Nat} (hlast : blk.Last name (.assign k (.var t name) value)) :
    ∃ types, r.varTypes? name = some types ∧ r.exprTypes k ⊆ types ∪ .null ∧
      (.assign k (.var t name) value ∉ blk.conditions → r.exprTypes k ⊆ types) := by
  have hcovered : r.Accounted := Moves.routines h.moves (Mid.kept_of sound_empty.toKept)
    (fun _ _ _ hfresh => by cases hfresh; exact Routine.accounted_of_blank rfl)
    (fun _ _ _ _ hm hr hevolves => hevolves.covered hm hr) (by simp [Mid.of, Program.empty]) r hr
  have hsuits := (h.sound.routines r hr).suits hblk
  have hgiven := hcovered b k t blk name value hblk hlast
  refine ⟨_, Routine.varTypes?_eq (hsuits.mem_names hlast), ?_, fun hnot => ?_⟩
  · refine TypeSet.subset_iff.2 fun x hx => TypeSet.mem_union.2 ((hgiven x hx).imp_right fun hnull => ?_)
    rw [hnull.1]
    decide
  · exact TypeSet.subset_iff.2 fun x hx => (hgiven x hx).resolve_right fun hnull => hnot hnull.2

namespace Program

/-- `f` gives `x` an integer, and a string before the block is left. -/
def overwriting : List RoutineDecl :=
  [{ name := "f"
     body := [.eval (.assign () (.var () "x") (.lit () .int)),
       .eval (.assign () (.var () "y") (.concat () [.assign () (.var () "x") (.lit () .string),
         .var () "x"]))] }]

/-- The block of `f`. -/
def isOverwriting : Block Nat → Bool
  | ⟨[.eval (.assign 0 (.var 1 "x") (.lit 2 .int)),
      .eval (.assign 3 (.var 4 "y") (.concat 5 [.assign 6 (.var 7 "x") (.lit 8 .string), .var 9 "x"]))],
      .ret none, _⟩ => true
  | _ => false

theorem last_of_isOverwriting {blk : Block Nat} (h : isOverwriting blk = true) :
    blk.Last "x" (.assign 6 (.var 7 "x") (.lit 8 .string)) ∧
      .assign 6 (.var 7 "x") (.lit 8 .string) ∉ blk.conditions := by
  unfold isOverwriting at h
  split at h
  · refine ⟨?_, ?_⟩
    · refine @Block.Last.op _ _ _ _ [_] [] _ _ _ rfl (mem_singleton_self _) (by simp) ?_ (by simp)
        (by simp [Exit.stored, Exit.exprs])
      refine .under (mem_singleton_self _) (by simp [Expr.base?, Expr.stored, Expr.walk, Expr.store?]) ?_
      exact .under (.head _) (by simp [Expr.stored, Expr.walk, Expr.store?]) .self
    · simp [Block.conditions, Exit.conditions, Block.roots, Op.exprs, Exit.exprs, Expr.walk_eq,
        Expr.operands, Expr.conditions]
  · cases h

/-- The string is covered; the integer is not. -/
theorem overwriting_covered : ∃ n p' r types, (ofDecls overwriting).analyze {} = .ok (.converged n) p' ∧
    p'.routines[0]? = some r ∧ r.varTypes? "x" = some types ∧ r.exprTypes 6 = .string ∧
    r.exprTypes 6 ⊆ types ∧ r.exprTypes 0 = .int ∧ ¬ r.exprTypes 0 ⊆ types := by
  obtain ⟨n, p', hrun, hgood⟩ := exists_converged (ofDecls overwriting) {}
    (fun p' => p'.routines[0]?.any fun r => r.graph.blocks[0]?.any isOverwriting &&
      r.exprTypes 6 == .string && r.exprTypes 0 == .int && r.varTypes? "x" == some .string)
    (by decide +kernel)
  simp only [Option.any_eq_true, Bool.and_eq_true, beq_iff_eq] at hgood
  obtain ⟨r, hr, ⟨⟨⟨blk, hblk, hshape⟩, hlast⟩, hfirst⟩, hvar⟩ := hgood
  obtain ⟨hends, hnot⟩ := last_of_isOverwriting hshape
  have hhist := (history_ofDecls overwriting).analyze (by simp) hrun
  obtain ⟨types, htypes, -, hcovered⟩ := hhist.assignment_covered (List.mem_of_getElem? hr) hblk hends
  obtain rfl := Option.some.inj (hvar.symm.trans htypes)
  exact ⟨n, p', r, _, hrun, hr, htypes, hlast, hcovered hnot, hfirst, by rw [hfirst]; decide⟩

end Program

end ShapeFlow
