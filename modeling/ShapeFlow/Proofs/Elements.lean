/-
# Elements that have been written

A value that is stored into an element of an array joins the elements that were there, an array
among them as one of unknown elements.  Apart from this flattening nothing is lost: the elements
are read again, and strings and objects stay what they are.  Into an element of an element the
value is stored from the inside out: each array on the way is made anew, in a table that may have
grown since, and the outermost one is assigned to the variable.  A read of such a chain looks at
the variable first, so it finds what was assigned, whatever the keys do.

Key definitions: `ShapeTable.flatten`, `ShapeTable.Offers`, `ShapeTable.Nests`.
Key theorems: `ShapeTable.updated_offers`, `ShapeTable.Nests.updated`, `store_nests`,
`element_writes_kept`.
-/
import ShapeFlow.Proofs.Conditions
import ShapeFlow.Proofs.Flattening
import ShapeFlow.Proofs.References

namespace ShapeFlow

open ShapeFlow.Flow List TypeSet

namespace ShapeTable

variable {t t' : ShapeTable} {i j n : Nat} {s r u v old value elems inner : TypeSet}

/-! ### What a set offers -/

/-- The shape as an element of an array: an array of unknown elements, if it is an array. -/
def flatten (t : ShapeTable) (i : Nat) : Nat := if i ∈ t.ofKind .array then 6 else i

/-- Up to flattening, `r` has every shape of `s`.  The any-type has them all. -/
def Offers (t : ShapeTable) (r s : TypeSet) : Prop := ∀ i ∈ s, t.flatten i ∈ r

theorem flatten_array (hi : t.shapes[i]? = some (.array inner)) : t.flatten i = 6 :=
  if_pos (mem_arrays hi)

theorem Extends.flatten (h : t.Extends t') (hi : i < t.size) : t'.flatten i = t.flatten i := by
  simp only [ShapeTable.flatten, h.mem_ofKind .array hi]

/-- What is known is flattened in the same way while the table grows. -/
theorem Offers.mono (ho : t.Offers r s) (ht : t.Valid) (hs : t.Knows s) (h : t.Extends t') :
    t'.Offers r s := by
  intro i hi
  rcases Nat.lt_or_ge i t.size with hlt | hge
  · rw [h.flatten hlt]
    exact ho i hi
  · -- an index without a shape is only in the any-type, which has the generic array as well
    have hany := hs.resolve_right fun hall => Nat.not_lt.2 hge (hall i hi)
    have hsix := ho 6 (isAny_iff.1 hany 6 (by decide))
    rw [flatten_array ht.getElem?_array] at hsix
    have hnot : i ∉ t.ofKind .array := fun hi => by
      obtain ⟨_, hi, -⟩ := (t.agrees.arrays.mem_iff i).1 hi
      exact Nat.not_lt.2 hge (lt_of_getElem? hi)
    unfold flatten
    split
    · exact hsix
    · simpa [flatten, hnot] using ho i hi

theorem Offers.of_any (hr : r.isAny = true) : t.Offers r s := by
  intro i hi
  refine isAny_iff.1 hr _ ?_
  unfold flatten
  split
  · decide
  · exact lt_of_mem hi

theorem mem_foldl_union {f : Shape → TypeSet} {sh : Shape} : ∀ {l : List Shape} {acc : TypeSet},
    i ∈ acc ∨ (sh ∈ l ∧ i ∈ f sh) → i ∈ l.foldl (fun acc sh => acc ∪ f sh) acc
  | [], _, h => h.resolve_right fun h => not_mem_nil h.1
  | _ :: l, _, h => by
    refine mem_foldl_union (l := l) (?_ : _ ∨ (sh ∈ l ∧ i ∈ f sh))
    rcases h with hi | ⟨hsh, hi⟩
    · exact .inl (mem_union.2 (.inl hi))
    · rcases mem_cons.1 hsh with rfl | hsh
      · exact .inl (mem_union.2 (.inr hi))
      · exact .inr ⟨hsh, hi⟩

theorem mem_gathered {f : Shape → TypeSet} {sh : Shape} {l : List Shape} (hl : t.shapesOf s = some l)
    (hj : j ∈ s) (hsh : t.shapes[j]? = some sh) (hi : i ∈ f sh) :
    i ∈ l.foldl (fun acc sh => acc ∪ f sh) .void :=
  mem_foldl_union (.inr ⟨(mem_of_mapM hl).2 ⟨j, mem_members.2 hj, hsh⟩, hi⟩)

variable (harray : t.shapes[j]? = some (.array inner)) (hi : i ∈ inner)

include harray hi

theorem mem_element (hj : j ∈ u) (hr : t.element u = some r) : i ∈ r := by
  unfold element at hr
  split at hr
  · cases hr
    exact (mem_any i).2 (lt_of_mem hi)
  · rw [if_neg fun hvoid => isVoid_iff.1 hvoid j hj] at hr
    obtain ⟨l, hl, hr⟩ := Option.bind_eq_some_iff.1 hr
    have hread : i ∈ l.foldl (fun acc sh => acc ∪ sh.element) .void := mem_gathered hl hj harray hi
    cases hr
    rwa [if_neg fun hvoid => isVoid_iff.1 hvoid i hread]

theorem mem_elements (hj : j ∈ s) (h : t.elements (t.restrict s .array) = some elems) :
    i ∈ elems := by
  have hin : j ∈ t.restrict s .array := by
    unfold restrict
    split
    · exact (mem_any j).2 (lt_of_mem hj)
    · exact mem_common.2 ⟨hj, mem_arrays harray⟩
  unfold elements at h
  split at h
  · cases h
    exact (mem_any i).2 (lt_of_mem hi)
  · obtain ⟨l, hl, h⟩ := Option.bind_eq_some_iff.1 h
    cases h
    exact mem_gathered hl hin harray hi

omit harray hi

/-! ### Storing into an element -/

theorem meets_of_mem (hs : i ∈ s) (hr : i ∈ r) : s.meets r = true := by
  rw [meets, Bool.not_eq_true', ← Bool.not_eq_true]
  exact fun hvoid => isVoid_iff.1 hvoid i (mem_common.2 ⟨hs, hr⟩)

theorem intern_offers (ht : t.Valid) (h : t.Offers inner elems) :
    ∃ j ∈ (t.intern (.array inner)).1, ∃ inner',
      (t.intern (.array inner)).2.shapes[j]? = some (.array inner') ∧ t.Offers inner' elems := by
  rcases intern_cases t (.array inner) with ⟨j, hj, heq⟩ | ⟨-, ⟨hroom, hset, hshapes⟩ | ⟨-, heq⟩⟩
  · rw [heq]
    exact ⟨j, mem_single.2 ⟨rfl, (lt_of_getElem? hj).trans_le t.agrees.room⟩, inner, hj, h⟩
  · rw [hset, hshapes]
    exact ⟨t.size, mem_single.2 ⟨rfl, hroom⟩, inner, by simp [Registry.size], h⟩
  · -- a full table answers with the any-type, which has the array of unknown elements
    rw [heq]
    exact ⟨6, (mem_any 6).2 (by decide), .any, ht.getElem?_array, .of_any isAny_any⟩

theorem arrayOf_offers (ht : t.Valid) (elems : TypeSet) :
    ∃ j ∈ (t.arrayOf elems).1, ∃ inner, (t.arrayOf elems).2.shapes[j]? = some (.array inner) ∧
      t.Offers inner elems := by
  unfold arrayOf
  dsimp only
  split
  next => exact ⟨6, mem_single.2 (by decide), .any, ht.getElem?_array, .of_any isAny_any⟩
  next =>
    split
    next =>
      refine intern_offers ht fun i hi => mem_union.2 ?_
      unfold flatten
      split
      next => exact .inr (by decide)
      next hnot => exact .inl (mem_remove.2 ⟨hi, .inr hnot⟩)
    next hmeets =>
      refine intern_offers ht fun i hi => ?_
      have hnot : i ∉ t.ofKind .array := fun harray => hmeets (meets_of_mem hi harray)
      rwa [flatten, if_neg hnot]

theorem updated_holds (ht : t.Valid) (hs : t.Knows s)
    (helems : t.elements (t.restrict s .array) = some elems)
    (hu : t.updated s value = some (u, t')) :
    (∃ j ∈ u, ∃ inner, t'.shapes[j]? = some (.array inner) ∧ t.Offers inner (elems ∪ value)) ∧
      ∀ i ∈ s, i ∈ t.ofKind .string ∨ i ∈ t.ofKind .object → i ∈ u := by
  unfold updated at hu
  split at hu
  next hany =>
    cases hu
    exact ⟨⟨6, by decide, .any, ht.getElem?_array, .of_any isAny_any⟩,
      fun i hi _ => (mem_any i).2 (lt_of_mem hi)⟩
  next hany =>
    simp only [helems, Option.bind_eq_bind, Option.bind_some, Option.pure_def, Option.some.injEq,
      Prod.mk.injEq] at hu
    obtain ⟨rfl, rfl⟩ := hu
    obtain ⟨j, hj, inner, harray, hoffers⟩ := arrayOf_offers ht (elems ∪ value)
    refine ⟨⟨j, mem_union.2 (.inl (mem_union.2 (.inl hj))), inner, harray, hoffers⟩, ?_⟩
    rintro i hi (hstring | hobject)
    · have hcan : (t.arrayOf (elems ∪ value)).2.canBe s .string = true := by
        rw [canBe, Bool.or_eq_true]
        exact .inr (meets_of_mem hi hstring)
      rw [if_pos hcan]
      exact mem_union.2 (.inl (mem_union.2 (.inr hstring)))
    · rw [(extends_arrayOf t _).restrict hs, restrict, if_neg hany]
      exact mem_union.2 (.inr (mem_common.2 ⟨hi, hobject⟩))

/-- **Storing into an element** leaves an array.  What is read then offers the value and the
elements that were there; strings and objects stay. -/
theorem updated_offers (ht : t.Valid) (hs : t.Knows s) (hv : t.Knows value) :
    ∃ u t' r, t.updated s value = some (u, t') ∧ (t'.Valid ∧ t.Extends t' ∧ t'.Knows u) ∧
      (∃ j ∈ u, ∃ inner, t'.shapes[j]? = some (.array inner)) ∧ t'.element u = some r ∧
      t.Offers r value ∧
      (∀ j ∈ s, ∀ inner, t.shapes[j]? = some (.array inner) → t.Offers r inner) ∧
      ∀ i ∈ s, i ∈ t.ofKind .string ∨ i ∈ t.ofKind .object → i ∈ u := by
  obtain ⟨u, t', hu, ht', hext, hknown⟩ := updated_spec ht hs hv
  obtain ⟨r, hr, -⟩ := element_spec ht' hknown
  obtain ⟨elems, helems, -⟩ := elements_spec ht (knows_restrict hs .array)
  obtain ⟨⟨j, hj, inner, harray, hoffers⟩, hkept⟩ := updated_holds ht hs helems hu
  have hread : t.Offers r (elems ∪ value) := fun i hi => mem_element harray (hoffers i hi) hj hr
  exact ⟨u, t', r, hu, ⟨ht', hext, hknown⟩, ⟨j, hj, inner, harray⟩, hr,
    fun i hi => hread i (mem_union.2 (.inr hi)),
    fun j hj inner harray i hi => hread i (mem_union.2 (.inl (mem_elements harray hi hj helems))),
    hkept⟩

/-! ### Elements of elements -/

/-- After `s` has been stored `n` elements deep, this is so of what the outermost array has become. -/
def Nests (t : ShapeTable) (s : TypeSet) : Nat → TypeSet → Prop
  | 0, v => v = s
  | n + 1, v => (∃ j ∈ v, ∃ inner, t.shapes[j]? = some (.array inner)) ∧
      ∃ r, t.element v = some r ∧ t.Offers r (if n = 0 then s else .array)

theorem Nests.mono (h : t.Nests s n v) (ht : t.Valid) (hs : t.Knows s) (hext : t.Extends t') :
    t'.Nests s n v := by
  cases n with
  | zero => exact h
  | succ n =>
    obtain ⟨⟨j, hj, inner, harray⟩, r, hr, hoffers⟩ := h
    have harray' : t'.shapes[j]? = some (.array inner) :=
      (hext.getElem? (lt_of_getElem? harray)).trans harray
    exact ⟨⟨j, hj, inner, harray'⟩, r, element_mono hext hr, hoffers.mono ht (hs.ite ht.knows_array) hext⟩

theorem Nests.updated (h : t.Nests s n v) (ht : t.Valid) (hs : t.Knows s) (hold : t.Knows old)
    (hv : t.Knows v) (hu : t.updated old v = some (u, t')) :
    t'.Valid ∧ t.Extends t' ∧ t'.Knows u ∧ t'.Nests s (n + 1) u := by
  obtain ⟨u', t'', r, hu', ⟨ht', hext, hknown⟩, harray, hr, hoffers, -⟩ := updated_offers ht hold hv
  obtain ⟨rfl, rfl⟩ := Prod.mk.inj (Option.some.inj (hu'.symm.trans hu))
  refine ⟨ht', hext, hknown, harray, r, hr, .mono (t := t) ?_ ht (hs.ite ht.knows_array) hext⟩
  cases n with
  | zero => exact h ▸ hoffers
  | succ n =>
    obtain ⟨⟨j, hj, inner, harray⟩, -⟩ := h
    have hsix := hoffers j hj
    rw [flatten_array harray] at hsix
    intro i hi
    obtain rfl := (mem_single.1 hi).1
    rwa [flatten_array ht.getElem?_array]

theorem Nests.read (h : t.Nests s (n + 1) v) (ht : t.Valid) (hr : t.elementAt v (n + 1) = some r) :
    t.Offers r s := by
  obtain ⟨-, q, hq, hoffers⟩ := h
  cases n with
  | zero => exact Option.some.inj (hq.symm.trans hr) ▸ hoffers
  | succ n =>
    -- below the second array nothing is known
    refine .of_any ?_
    induction n generalizing r with
    | zero =>
      obtain ⟨q', hq', hr⟩ := Option.bind_eq_some_iff.1 hr
      obtain rfl : q = q' := Option.some.inj (hq.symm.trans hq')
      have hsix := hoffers 6 (mem_single.2 (by decide))
      rw [flatten_array ht.getElem?_array] at hsix
      exact isAny_iff.2 fun i hi => mem_element ht.getElem?_array ((mem_any i).2 hi) hsix hr
    | succ n ih =>
      obtain ⟨q', hq', hr⟩ := Option.bind_eq_some_iff.1 hr
      rw [element, if_pos (ih hq' hoffers)] at hr
      exact Option.some.inj hr ▸ isAny_any

end ShapeTable

/-! ### Chains of elements -/

namespace Infer

variable {g : Place} {w w' : Walker} {target : Expr Nat} {x : String} {m n : Nat} {s v : TypeSet}

theorem current_assign_self (s : State) (i : Nat) (v : TypeSet) :
    current (s.assign i v) i = v.plain ∨ current (s.assign i v) i = .any := by
  by_cases hi : VarSet.tracked i = true
  · have hcertainly : (s.assign i v).certainly.contains i = true := by
      simp [State.assign, VarSet.contains_insert]
    left
    rw [current, State.get, if_pos hi, State.slot_assign, if_pos rfl, if_pos hcertainly]
  · have hany : TypeSet.any.plain = .any ∧ TypeSet.any.plain ∪ .null = .any := by decide
    right
    rw [current, State.get, if_neg hi, hany.2, hany.1, ite_self]

/-- **Storing into a chain of elements** assigns to its variable an array that nests the value. -/
theorem store_nests (htarget : target.IsElement x n) (hfree : g.Free) (hfits : Fits g target)
    (hw : Sane g w) (hs : w.table.Knows s) (hv : w.table.Knows v) (hnests : w.table.Nests s m v)
    (h : (target.meaning g.setting).store v w = .ok () w') :
    x ∈ w'.routine.scope.names ∧ ∃ u, w'.table.Nests s (m + n) u ∧
      (current w'.state (w'.routine.index x) = u.plain ∨
        current w'.state (w'.routine.index x) = .any) := by
  induction htarget generalizing m v w w' with
  | var k =>
    rw [Expr.meaning] at h
    obtain ⟨var, w1, huse, h⟩ := ok_of_bind h
    obtain ⟨rfl, rfl⟩ := EStateM.Result.ok.inj ((useVar_lookedUp w x).symm.trans huse)
    obtain ⟨_, w2, hassign, h⟩ := ok_of_bind h
    cases hassign
    obtain ⟨-, rfl⟩ := of_record h
    exact ⟨(w.routine.scope.use_spec x).1, v, hnests, current_assign_self _ _ _⟩
  | item k key _ ih =>
    rw [Expr.meaning] at h
    obtain ⟨_, w1, hkey, h⟩ := ok_of_bind h
    obtain ⟨_, w2, hstore, h⟩ := ok_of_bind h
    obtain ⟨-, rfl⟩ := of_record h
    have hin := hfits.operand (.head _)
    obtain ⟨hw1, hl1, -⟩ :=
      ((meaning_sound hfree key (hfits.operand (.tail _ (.head _)))).value w hw).ok hkey
    rw [storeElement_eq] at hstore
    obtain ⟨old, w3, hquiet, hstore⟩ := ok_of_bind hstore
    obtain ⟨hw3, hl3, hold⟩ := ((meaning_sound hfree _ hin).quiet w1 hw1).ok hquiet
    obtain ⟨u, w4, hgrow, hstore⟩ := ok_of_bind hstore
    obtain ⟨table, hu, rfl⟩ := of_grow hgrow
    have hext := hl1.table.trans hl3.table
    have hs3 := hs.mono hext
    obtain ⟨htable, hlong, hknown, hnests'⟩ :=
      (hnests.mono hw.table hs hext).updated hw3.table hs3 hold.1 (hv.mono hext) hu
    obtain ⟨hx, u, hu, hread⟩ :=
      ih hin (hw3.withTable htable hlong) (hs3.mono hlong) hknown hnests' hstore
    exact ⟨hx, u, Nat.succ_add_eq_add_succ m _ ▸ hu, hread⟩

theorem assign_nests {k : Nat} {e : Expr Nat} {a : TypeSet} (htarget : target.IsElement x n)
    (hfree : g.Free) (he : Fits g (.assign k target e)) (hw : Sane g w)
    (h : ((Expr.assign k target e).meaning g.setting).value w = .ok a w') :
    ∃ s w₁, (e.meaning g.setting).value w = .ok s w₁ ∧ a = s.plain ∧ w'.table.Knows s ∧
      x ∈ w'.routine.scope.names ∧ ∃ u, w'.table.Nests s.plain n u ∧
        (current w'.state (w'.routine.index x) = u.plain ∨
          current w'.state (w'.routine.index x) = .any) := by
  rw [Expr.meaning] at h
  obtain ⟨w₂, hstep, -, rfl⟩ := of_recorded h
  obtain ⟨s, w₁, hvalue, hstep⟩ := ok_of_bind hstep
  obtain ⟨_, w₃, hstore, hpure⟩ := ok_of_bind hstep
  cases hpure
  have hin := he.operand (.head _)
  obtain ⟨hw₁, -, hs⟩ :=
    ((meaning_sound hfree e (he.operand (.tail _ (.head _)))).value w hw).ok hvalue
  obtain ⟨-, hl, -⟩ := ((meaning_sound hfree target hin).store s.plain w₁ hw₁ hs.1.plain).ok hstore
  have hnests := store_nests (m := 0) htarget hfree hin hw₁ hs.1.plain hs.1.plain rfl hstore
  rw [Nat.zero_add] at hnests
  exact ⟨s, w₁, hvalue, rfl, hs.1.mono hl.table, hnests⟩

/-- **Element writes lose nothing.**  In any table, what is read from a set after a value has been
stored into an element has the shapes of the value and of the elements of each array that was there,
an array among them as one of unknown elements; the strings and objects of the set stay.  So a sane walker
that has gone through `$x[k₁]...[kₙ] = e` reads from any chain of as many elements of `$x`, the same
or another, every shape of `e` up to this flattening; from the variable itself, for `n = 0`, it
reads just these shapes.  Otherwise it reads the any-type, which has them all. -/
theorem element_writes_kept :
    (∀ (t : ShapeTable) (s value : TypeSet), t.Valid → t.Knows s → t.Knows value →
      ∃ u t' r, t.updated s value = some (u, t') ∧ t'.element u = some r ∧ t.Offers r value ∧
        (∀ j ∈ s, ∀ inner, t.shapes[j]? = some (.array inner) → t.Offers r inner) ∧
        ∀ i ∈ s, i ∈ t.ofKind .string ∨ i ∈ t.ofKind .object → i ∈ u) ∧
    ∀ (g : Place) (w : Walker), g.Free → Sane g w → g.setting.resolver.Within g.routines →
      ∀ (k n : Nat) (x : String) (target e : Expr Nat), target.IsElement x n →
        Fits g (.assign k target e) → ∃ s w₁ w₂, (e.meaning g.setting).value w = .ok s w₁ ∧
          ((Expr.assign k target e).meaning g.setting).value w = .ok s.plain w₂ ∧
          ∀ read : Expr Nat, read.IsElement x n → Fits g read →
            ∃ r w₃, (read.meaning g.setting).value w₂ = .ok r w₃ ∧
              (n = 0 → r = s.plain ∨ r = .any) ∧ (n ≠ 0 → w₃.table.Offers r s) := by
  refine ⟨fun t s value ht hs hv => ?_, fun g w hfree hw hwithin k n x target e htarget he => ?_⟩
  · obtain ⟨u, t', r, hu, -, -, hr, hrest⟩ := ShapeTable.updated_offers ht hs hv
    exact ⟨u, t', r, hu, hr, hrest⟩
  · obtain ⟨_, w₂, hassign⟩ := value_succeeds hfree he hw hwithin
    obtain ⟨hw₂, -, -⟩ := ((meaning_sound hfree _ he).value w hw).ok hassign
    obtain ⟨s, w₁, hvalue, rfl, hs, hx, u, hnests, hfound⟩ :=
      assign_nests htarget hfree he hw hassign
    refine ⟨s, w₁, w₂, hvalue, hassign, fun read hread hfits => ?_⟩
    obtain ⟨r, w₃, hrun⟩ := value_succeeds hfree hfits hw₂ hwithin
    have hgains := value_gains hrun
    obtain ⟨hw₃, -, -⟩ := ((meaning_sound hfree _ hfits).value w₂ hw₂).ok hrun
    obtain ⟨-, helement⟩ := element_reads hread hrun
    rw [(Routine.index_of_le hgains.routine.scope hx).2] at helement
    refine ⟨r, w₃, hrun, ?_⟩
    rcases hfound with hfound | hfound
    · rw [hfound] at helement
      cases n with
      | zero =>
        obtain rfl : u = s.plain := hnests
        cases helement
        exact ⟨fun _ => .inl rfl, fun h => absurd rfl h⟩
      | succ n =>
        have hplain : w₃.table.Nests s.plain (n + 1) u.plain := hnests.mono hw₂.table hs hgains.table
        exact ⟨nofun, fun _ => hplain.read hw₃.table helement⟩
    · rw [hfound, ShapeTable.elementAt_any] at helement
      cases helement
      exact ⟨fun _ => .inr rfl, fun _ => .of_any isAny_any⟩

/-- An integer is stored into an element of an array or a string; `$x[0] = $y`, and another element
of `$x` is read. -/
theorem element_writes_kept_once : (∃ u t' r, ShapeTable.standard.updated (.array ∪ .string) .int = some (u, t') ∧
      t'.element u = some r ∧ ShapeTable.standard.Offers r .int ∧ ShapeTable.standard.Offers r .any ∧ 5 ∈ u) ∧
    ∃ s w₂ r w₃, ((Expr.assign 0 (.item 1 (.var 2 "x") (.lit 3 .int)) (.var 4 "y")).meaning
      guardedPlace.setting).value guardedWalker = .ok s w₂ ∧
    ((Expr.item 5 (.var 6 "x") (.var 7 "y")).meaning guardedPlace.setting).value w₂ = .ok r w₃ ∧
    w₃.table.Offers r s := by
  have ht := ShapeTable.valid_standard
  obtain ⟨u, t', r, hu, hr, hvalue, helems, hkept⟩ := element_writes_kept.1 .standard
    (.array ∪ .string) .int ht (ht.knows_array.union ht.knows_string) ht.knows_int
  refine ⟨⟨u, t', r, hu, hr, hvalue, helems 6 (by decide) _ ht.getElem?_array,
    hkept 5 (by decide) (.inl (by decide))⟩, ?_⟩
  obtain ⟨s, -, w₂, -, hwrite, hread⟩ := element_writes_kept.2 guardedPlace guardedWalker
    (fun _ h => h) sane_guardedWalker (Resolver.mostSpecific_within _) 0 1 "x"
    (.item 1 (.var 2 "x") (.lit 3 .int)) (.var 4 "y") (.item 1 _ (.var 2))
    (fits_guardedPlace (by decide))
  obtain ⟨r, w₃, hrun, -, hoffers⟩ := hread _ (.item 5 (.var 7 "y") (.var 6))
    (fits_guardedPlace (by decide))
  exact ⟨_, w₂, r, w₃, hwrite, hrun, hoffers (by decide)⟩

end Infer
end ShapeFlow
