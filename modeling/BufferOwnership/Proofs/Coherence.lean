import BufferOwnership.Proofs.ShapeSpec

/-!
# Coherent routines

A routine is coherent if its links agree and every identifier in it has an entry; nothing is asked
of scopes or of erased operations. This is enough for every query to have an answer: no operation is
nested deeper than the table is long, so a descent with the fuel `depthBound` never runs out.
`Touches` says of the tree what `touches` computes.
-/

namespace BufferOwnership

/-- A search succeeds if its test has an answer everywhere, and finds what there is. -/
theorem anyM_eq_ok {α ε : Type} {l : List α} {test : α → Except ε Bool} {P : α → Prop}
    (h : ∀ x ∈ l, ∃ answer, test x = .ok answer ∧ (answer = true ↔ P x)) :
    ∃ answer, l.anyM test = .ok answer ∧ (answer = true ↔ ∃ x ∈ l, P x) := by
  induction l with
  | nil => exact ⟨false, rfl, by simp⟩
  | cons x l ih =>
    obtain ⟨answer, hx, hiff⟩ := h x (by simp)
    rw [List.anyM_cons, bind_of_ok hx]
    cases answer with
    | true => exact ⟨true, rfl, by simpa using .inl (hiff.mp rfl)⟩
    | false =>
      obtain ⟨rest, hrest, hrest'⟩ := ih fun y hy => h y (by simp [hy])
      have hnot : ¬ P x := by simpa using hiff
      exact ⟨rest, hrest, by simp [hrest', hnot]⟩

/-- Two answers that mean the same are the same. -/
theorem eq_of_true_iff {a b : Bool} {P Q : Prop} (ha : a = true ↔ P) (hb : b = true ↔ Q)
    (h : P ↔ Q) : a = b :=
  Bool.eq_iff_iff.mpr (ha.trans (h.trans hb.symm))

namespace Routine

/-- Links agree, every identifier has an entry, and the root is a routine that stands alone. -/
structure Coherent (r : Routine) : Prop extends r.Nested where
  operands_known : ∀ o, ∀ v ∈ r.operandsOf o, v.index < r.values.size
  results_known : ∀ o, ∀ v ∈ r.resultsOf o, v.index < r.values.size
  args_known : ∀ b, ∀ v ∈ r.argsOf b, v.index < r.values.size
  origin_known : ∀ v o i, r.origin? v = some (.result o i) → o.index < r.ops.size
  root_routine : ∃ name, r.kind? r.root = some (.routine name)
  root_unlinked : r.parent? r.root = none

variable {r : Routine} {o p : OpId} {b : BlockId} {v : ValueId} {k fuel : Nat}
variable {test : ValueId → Bool} {withOperands : Bool} {vs : List ValueId}

theorem WellFormed.coherent (h : r.WellFormed) : r.Coherent where
  toNested := h.linked.toNested
  operands_known := h.known
  results_known _ _ := h.linked.result_known
  args_known _ _ := h.linked.arg_known
  origin_known v o i hv := by
    obtain ⟨d, hd, -⟩ := h.linked.op?_of_origin hv
    exact lt_of_op? hd
  root_routine := h.root_routine
  root_unlinked := h.root_unlinked

namespace Coherent

theorem exists_op?_of_mem (h : r.Coherent) (ho : o ∈ r.opsOf b) : ∃ d, r.op? o = some d :=
  Option.ne_none_iff_exists'.mp (h.inRange.ops b o ho)

theorem exists_op?_of_reached (h : r.Coherent) (ho : r.Reached o) : ∃ d, r.op? o = some d := by
  rcases ho.cases_tail with hroot | ⟨p, -, hup⟩
  · obtain ⟨name, hkind⟩ := h.root_routine
    obtain ⟨d, hd, -⟩ := exists_op?_of_kind? hkind
    exact ⟨d, hroot ▸ hd⟩
  · exact exists_op?_of_up? hup

/-- What stands in the blocks of a reached operation is reached. -/
theorem reached_of_mem (h : r.Coherent) (hreached : r.Reached o) (hholder : r.holder? b = some o)
    (hp : p ∈ r.opsOf b) : r.Reached p :=
  hreached.step ((h.up?_of_mem hp).trans hholder)

theorem root_known (h : r.Coherent) : r.root.index < r.ops.size := by
  obtain ⟨d, hd⟩ := h.exists_op?_of_reached (o := r.root) .refl
  exact lt_of_op? hd

theorem length_opsOf_le (h : r.Coherent) (b : BlockId) : (r.opsOf b).length ≤ r.ops.size := by
  refine length_le_size (h.ops_nodup b) fun p hp => ?_
  obtain ⟨d, hd⟩ := h.exists_op?_of_mem hp
  exact lt_of_op? hd

end Coherent

theorem Depth.lt (h : r.Depth k o) (hc : r.Coherent) : k < r.ops.size :=
  h.lt_size hc.root_unlinked hc.root_known

/-! ## Queries about entries -/

theorem typeOf_ok (hv : v.index < r.values.size) : ∃ ty, r.typeOf v = .ok ty := by
  obtain ⟨V, hV⟩ := exists_value? hv
  exact ⟨V.ty, typeOf_eq_ok.mpr (ty?_of hV)⟩

theorem mapM_typeOf_ok (hvs : ∀ v ∈ vs, v.index < r.values.size) :
    ∃ types, vs.mapM r.typeOf = .ok types :=
  exists_mapM_eq_ok.mpr fun v hv => typeOf_ok (hvs v hv)

theorem isBuffer_ok (hv : v.index < r.values.size) : r.isBuffer v = .ok (r.holdsBuffer v) := by
  obtain ⟨ty, hty⟩ := typeOf_ok hv
  rw [isBuffer, bind_of_ok hty, holdsBuffer, typeOf_eq_ok.mp hty]
  rfl

theorem buffers_ok (hvs : ∀ v ∈ vs, v.index < r.values.size) :
    r.buffers vs = .ok (vs.filter r.holdsBuffer) := by
  induction vs with
  | nil => rfl
  | cons v vs ih =>
    rw [buffers, bind_of_ok (isBuffer_ok (hvs v (by simp))),
      bind_of_ok (ih fun w hw => hvs w (by simp [hw])), List.filter_cons]
    rfl

namespace InRange

theorem singleBlock? (h : r.InRange) {g : RegionId} (hg : g ∈ r.regionsOf o) :
    ∃ b?, r.singleBlock? g = .ok b? := by
  obtain ⟨G, hG, -⟩ := h.region hg
  rw [Routine.singleBlock?, bind_of_ok hG]
  rcases G.blocks with _ | ⟨b, _ | ⟨b', rest⟩⟩
  · exact ⟨_, rfl⟩
  · exact ⟨_, rfl⟩
  · exact ⟨_, rfl⟩

end InRange

/-! ## What an operation touches -/

/-- Some value that an operation reads or defines passes a test, or one that is read or defined
further inside. The operation's own operands count only if `withOperands` holds. -/
def Touches (r : Routine) (test : ValueId → Bool) (o : OpId) (withOperands : Bool) : Prop :=
  (withOperands = true ∧ ∃ v ∈ r.operandsOf o, test v = true) ∨
    (∃ v ∈ r.resultsOf o, test v = true) ∨
    ∃ q p, r.up? q = some o ∧ r.Inside q p ∧
      ∃ v, (v ∈ r.operandsOf p ∨ v ∈ r.resultsOf p) ∧ test v = true

/-- With its operands, an operation touches what it or an operation inside it mentions. -/
theorem touches_true_iff : r.Touches test o true ↔
    ∃ p, r.Inside o p ∧ ∃ v, (v ∈ r.operandsOf p ∨ v ∈ r.resultsOf p) ∧ test v = true := by
  constructor
  · rintro (⟨-, v, hv, ht⟩ | ⟨v, hv, ht⟩ | ⟨q, p, hup, hin, v, hv, ht⟩)
    · exact ⟨o, .refl, v, .inl hv, ht⟩
    · exact ⟨o, .refl, v, .inr hv, ht⟩
    · exact ⟨p, hin.head hup, v, hv, ht⟩
  · rintro ⟨p, hin, v, hv, ht⟩
    rcases hin.cases_head with rfl | ⟨q, hup, hin⟩
    · exact hv.elim (fun hv => .inl ⟨rfl, v, hv, ht⟩) fun hv => .inr (.inl ⟨v, hv, ht⟩)
    · exact .inr (.inr ⟨q, p, hup, hin, v, hv, ht⟩)

/-- What an operation touches further inside, it touches by an operation directly inside. -/
theorem Nested.touches_inner_iff (hn : r.Nested) :
    (∃ q p, r.up? q = some o ∧ r.Inside q p ∧
      ∃ v, (v ∈ r.operandsOf p ∨ v ∈ r.resultsOf p) ∧ test v = true) ↔
    ∃ g ∈ r.regionsOf o, ∃ b ∈ r.blocksOf g, ∃ q ∈ r.opsOf b, r.Touches test q true := by
  constructor
  · rintro ⟨q, p, hup, hin, v, hv⟩
    obtain ⟨b, hparent, hholder⟩ := exists_parent?_of_up? hup
    obtain ⟨g, hg, hb⟩ := hn.holder?_iff.mp hholder
    exact ⟨g, hg, b, hb, q, (hn.op_listed q b).mpr hparent, touches_true_iff.mpr ⟨p, hin, v, hv⟩⟩
  · rintro ⟨g, hg, b, hb, q, hq, ht⟩
    obtain ⟨p, hin, v, hv⟩ := touches_true_iff.mp ht
    have hholder := hn.holder?_iff.mpr ⟨g, hg, hb⟩
    exact ⟨q, p, (hn.up?_of_mem hq).trans hholder, hin, v, hv⟩

/-- The search for what an operation touches has an answer, and that answer does not depend on
the order in which it goes. The fuel makes up for what is left of the depth. -/
theorem Coherent.touchesWithin (hc : r.Coherent) (hdepth : r.Depth k o)
    (hfuel : r.ops.size < fuel + k) :
    ∃ answer, r.touchesWithin test fuel o withOperands = .ok answer ∧
      (answer = true ↔ r.Touches test o withOperands) := by
  induction fuel generalizing o k withOperands with
  | zero =>
    have hlt := hdepth.lt hc
    omega
  | succ fuel ih =>
    obtain ⟨d, hd⟩ := hc.exists_op?_of_reached hdepth.reached
    rw [Routine.touchesWithin, bind_of_ok (op_of hd)]
    by_cases hoperands : (withOperands && d.operands.any test) = true
    · rw [if_pos hoperands]
      refine ⟨true, rfl, iff_of_true rfl (.inl ?_)⟩
      simpa [operandsOf_of hd] using hoperands
    rw [if_neg hoperands]
    by_cases hresults : d.results.any test = true
    · rw [if_pos hresults]
      refine ⟨true, rfl, iff_of_true rfl (.inr (.inl ?_))⟩
      simpa [resultsOf_of hd] using hresults
    rw [if_neg hresults]
    -- nothing passes in the operation itself, so it is up to what is directly inside
    have hinner : ∃ answer, (d.regions.anyM fun g => do
        (← r.region g).blocks.anyM fun b => do
          (← r.block b).ops.anyM fun inner => r.touchesWithin test fuel inner true) = .ok answer ∧
        (answer = true ↔ ∃ g ∈ d.regions, ∃ b ∈ r.blocksOf g, ∃ q ∈ r.opsOf b,
          r.Touches test q true) := by
      refine anyM_eq_ok fun g hg => ?_
      rw [← regionsOf_of hd] at hg
      obtain ⟨G, hG, hblocks⟩ := hc.inRange.region hg
      rw [bind_of_ok hG, hblocks]
      refine anyM_eq_ok fun b hb => ?_
      obtain ⟨B, hB, hops, -⟩ := hc.inRange.block hb
      rw [bind_of_ok hB, hops]
      -- an operation in there is one level deeper, for which the rest of the fuel is enough
      refine anyM_eq_ok fun q hq => ?_
      have hup : r.up? q = some o :=
        (hc.up?_of_mem hq).trans (hc.holder?_iff.mpr ⟨g, hg, hb⟩)
      exact ih (hdepth.inner hup) (by omega)
    obtain ⟨answer, hanswer, hiff⟩ := hinner
    refine ⟨answer, hanswer, hiff.trans ?_⟩
    rw [← regionsOf_of hd, ← hc.touches_inner_iff]
    have hnot : ¬ (withOperands = true ∧ ∃ v ∈ r.operandsOf o, test v = true) := by
      simpa [operandsOf_of hd] using hoperands
    have hnot' : ¬ ∃ v ∈ r.resultsOf o, test v = true := by
      simpa [resultsOf_of hd] using hresults
    simp [Touches, hnot, hnot']

theorem Coherent.touches (hc : r.Coherent) (hreached : r.Reached o) :
    ∃ answer, r.touches test o withOperands = .ok answer ∧
      (answer = true ↔ r.Touches test o withOperands) := by
  obtain ⟨k, hk⟩ := hreached.depth
  exact hc.touchesWithin hk (by simp only [depthBound]; omega)

/-! ## Along a block -/

section ReachedBlock

variable {pre post : List OpId}

variable (hc : r.Coherent) (hreached : ∀ p ∈ r.opsOf b, r.Reached p)
include hc hreached

/-- Going back along a block comes to an end in that block. -/
theorem Coherent.earliestFrom (hlist : r.opsOf b = pre ++ o :: post) (hfuel : pre.length < fuel) :
    ∃ anchor ∈ r.opsOf b, r.earliestFrom test fuel o = .ok anchor := by
  induction fuel generalizing o pre post with
  | zero => omega
  | succ fuel ih =>
    rw [Routine.earliestFrom, bind_of_ok (hc.prevOp? hlist)]
    rcases List.eq_nil_or_concat pre with rfl | ⟨init, prev, rfl⟩
    · exact ⟨o, by simp [hlist], rfl⟩
    · rw [List.concat_eq_append] at hlist hfuel ⊢
      rw [List.getLast?_concat]
      have hprev : r.Reached prev := hreached prev (by simp [hlist])
      obtain ⟨answer, htouches, -⟩ : ∃ answer, r.touches test prev true = .ok answer ∧ _ :=
        hc.touches hprev
      simp only [bind_of_ok htouches]
      -- each step back uses one unit of fuel and one operation
      cases answer with
      | true => exact ⟨o, by simp [hlist], rfl⟩
      | false =>
        rw [List.append_assoc] at hlist
        refine ih hlist ?_
        simp only [List.length_append, List.length_singleton] at hfuel
        omega

/-- An indicator can be released somewhere in the block of its terminator. -/
theorem Coherent.releaseAnchor
    (ho : o ∈ r.opsOf b) (settings : Settings) (classes : AliasClasses) (i : ValueId) :
    ∃ anchor ∈ r.opsOf b, r.releaseAnchor settings classes o i = .ok anchor := by
  unfold Routine.releaseAnchor
  split
  · obtain ⟨pre, post, hlist⟩ := List.append_of_mem ho
    refine hc.earliestFrom hreached hlist ?_
    have hlen := hc.length_opsOf_le b
    rw [hlist, List.length_append] at hlen
    simp only [depthBound]
    omega
  · exact ⟨o, ho, rfl⟩

/-- Going on along a block comes to an end, and says whether anything there is touched. -/
theorem Coherent.untouchedFrom (first : OpId) (hlist : r.opsOf b = pre ++ o :: post)
    (hfuel : post.length < fuel) :
    ∃ answer, r.untouchedFrom test first fuel o = .ok answer ∧
      (answer = true ↔ ∀ p ∈ o :: post, ¬ r.Touches test p (p != first)) := by
  induction fuel generalizing o pre post with
  | zero => omega
  | succ fuel ih =>
    have ho : r.Reached o := hreached o (by simp [hlist])
    obtain ⟨answer, htouches, hiff⟩ : ∃ answer, r.touches test o (o != first) = .ok answer ∧ _ :=
      hc.touches ho
    rw [Routine.untouchedFrom, bind_of_ok htouches]
    cases answer with
    | true => exact ⟨false, rfl, by simpa using fun hnot => absurd (hiff.mp rfl) hnot⟩
    | false =>
      have hnot : ¬ r.Touches test o (o != first) := fun ht => by simpa using hiff.mpr ht
      simp only [Bool.false_eq_true, if_false, bind_of_ok (hc.nextOp? hlist)]
      cases post with
      | nil => exact ⟨true, rfl, by simpa using hnot⟩
      | cons next post =>
        have hnext : r.opsOf b = (pre ++ [o]) ++ next :: post := by simp [hlist]
        obtain ⟨answer, hrest, hiff⟩ := ih hnext (by simpa using hfuel)
        exact ⟨answer, hrest, by rw [hiff, List.forall_mem_cons (a := o)]; simp [hnot]⟩

theorem Coherent.isLastUse (hlist : r.opsOf b = pre ++ o :: post) (classes : AliasClasses)
    (v : ValueId) :
    ∃ answer, r.isLastUse classes o v = .ok answer ∧
      (answer = true ↔ ∀ p ∈ o :: post, ¬ r.Touches (classes.same v) p (p != o)) := by
  refine hc.untouchedFrom hreached o hlist ?_
  have hlen := hc.length_opsOf_le b
  rw [hlist, List.length_append, List.length_cons] at hlen
  simp only [depthBound]
  omega

end ReachedBlock

end Routine

end BufferOwnership
