import BufferOwnership.Proofs.Change

/-!
# Answers of queries

A query of a routine that gives an answer says something about the tables. The lemmas here turn
answers into statements about `opsOf`, `argsOf` and the like, so that no later proof opens a query.
-/

namespace BufferOwnership

namespace Routine

variable {r : Routine} {o next : OpId} {b : BlockId} {g : RegionId} {v : ValueId} {t : OpId}
variable {pre post body : List OpId} {test : ValueId → Bool} {withOperands : Bool}
variable {gs : List RegionId} {fuel slot : Nat} {B : Block} {d : Op}

/-! ## Entries -/

theorem block_opsOf (h : r.block b = .ok B) : r.opsOf b = B.ops :=
  opsOf_of (block_eq_ok.mp h)

theorem block_argsOf (h : r.block b = .ok B) : r.argsOf b = B.args :=
  argsOf_of (block_eq_ok.mp h)

theorem region_blocksOf {G : Region} (h : r.region g = .ok G) : r.blocksOf g = G.blocks :=
  blocksOf_of (region_eq_ok.mp h)

theorem isBuffer_eq_ok {answer : Bool} (h : r.isBuffer v = .ok answer) :
    r.holdsBuffer v = answer := by
  obtain ⟨ty, hty, hp⟩ := bind_eq_ok.mp h
  cases hp
  simp [holdsBuffer, typeOf_eq_ok.mp hty]

theorem buffers_eq_ok {vs bs : List ValueId} (h : r.buffers vs = .ok bs) :
    bs = vs.filter r.holdsBuffer := by
  induction vs generalizing bs with
  | nil =>
    cases h
    rfl
  | cons v vs ih =>
    obtain ⟨answer, hv, h⟩ := bind_eq_ok.mp h
    obtain ⟨rest, hrest, h⟩ := bind_eq_ok.mp h
    cases h
    rw [List.filter_cons, isBuffer_eq_ok hv, ih hrest]

/-! ## Blocks and regions -/

theorem terminator?_eq_some (h : r.terminator? b = .ok (some t)) :
    ∃ body, r.opsOf b = body ++ [t] ∧ r.isTerminator t = true := by
  obtain ⟨B, hB, h⟩ := bind_eq_ok.mp h
  split at h
  · cases h
  · rename_i last hlast
    obtain ⟨d, hd, h⟩ := bind_eq_ok.mp h
    split at h
    · rename_i hterm
      cases h
      refine ⟨B.ops.dropLast, ?_, by simp [isTerminator_of (op_eq_ok.mp hd), hterm]⟩
      rw [block_opsOf hB]
      exact (List.dropLast_append_getLast? t hlast).symm
    · cases h

/-- The last operation of a block is found, if it is of a kind that ends a block. -/
theorem terminator?_eq_of {t? : Option OpId} (hlist : r.opsOf b = body ++ [t])
    (hterm : r.isTerminator t = true) (h : r.terminator? b = .ok t?) : t? = some t := by
  obtain ⟨B, hB, h⟩ := bind_eq_ok.mp h
  rw [← block_opsOf hB, hlist, List.getLast?_concat] at h
  obtain ⟨d, hd, h⟩ := bind_eq_ok.mp h
  simp only [isTerminator_of (op_eq_ok.mp hd)] at hterm
  rw [if_pos hterm] at h
  cases h
  rfl

theorem bodyOps_eq_ok {l : List OpId} (hlist : r.opsOf b = body ++ [t])
    (hterm : r.isTerminator t = true) (h : r.bodyOps b = .ok l) : l = body := by
  obtain ⟨B, hB, h⟩ := bind_eq_ok.mp h
  obtain ⟨t?, ht, h⟩ := bind_eq_ok.mp h
  obtain rfl := terminator?_eq_of hlist hterm ht
  cases h
  rw [← block_opsOf hB, hlist, List.dropLast_concat]

theorem singleBlock?_eq_ok {b? : Option BlockId} (h : r.singleBlock? g = .ok b?) :
    b? = match r.blocksOf g with
      | [b] => some b
      | _ => none := by
  obtain ⟨G, hG, h⟩ := bind_eq_ok.mp h
  rw [region_blocksOf hG]
  rcases hblocks : G.blocks with _ | ⟨c, _ | ⟨c', rest⟩⟩ <;> rw [hblocks] at h <;> cases h <;> rfl

theorem singleBlock?_eq_some (h : r.singleBlock? g = .ok (some b)) : r.blocksOf g = [b] := by
  have hb := singleBlock?_eq_ok h
  split at hb
  · rename_i c hc
    cases hb
    exact hc
  · cases hb

theorem singleBlock?_eq_none (h : r.singleBlock? g = .ok none) : r.blocksOf g ≠ [b] := by
  have hb := singleBlock?_eq_ok h
  intro he
  rw [he] at hb
  cases hb

/-- A region that has not one block but at most one has none. -/
theorem blocksOf_eq_nil (h : r.singleBlock? g = .ok none) (hlen : (r.blocksOf g).length ≤ 1) :
    r.blocksOf g = [] := by
  cases hlist : r.blocksOf g with
  | nil => rfl
  | cons b rest =>
    rw [hlist, List.length_cons] at hlen
    obtain rfl : rest = [] := List.eq_nil_of_length_eq_zero (by omega)
    exact absurd hlist (singleBlock?_eq_none h)

theorem regionArgs_eq_ok {args : List ValueId} (h : r.regionArgs g = .ok args) :
    args = (r.blocksOf g).head?.elim [] r.argsOf := by
  obtain ⟨G, hG, h⟩ := bind_eq_ok.mp h
  rw [region_blocksOf hG]
  split at h
  · rename_i hc
    cases h
    simp [hc]
  · rename_i c cs hc
    obtain ⟨B, hB, h⟩ := bind_eq_ok.mp h
    cases h
    simp [hc, block_argsOf hB]

theorem innerBlocks_eq_ok {blocks : List BlockId} (h : r.innerBlocks o = .ok blocks) :
    blocks = (r.regionsOf o).flatMap r.blocksOf := by
  obtain ⟨d, hd, h⟩ := bind_eq_ok.mp h
  obtain ⟨regions, hregions, h⟩ := bind_eq_ok.mp h
  cases h
  rw [regionsOf_of (op_eq_ok.mp hd), flatMap_of_mapM hregions fun _ _ => region_blocksOf]

theorem anyM_eq_false {α ε : Type} {l : List α} {test : α → Except ε Bool}
    (h : l.anyM test = .ok false) : ∀ x ∈ l, test x = .ok false := by
  induction l with
  | nil => simp
  | cons x l ih =>
    rw [List.anyM_cons] at h
    obtain ⟨answer, hx, h⟩ := bind_eq_ok.mp h
    cases answer with
    | true => cases h
    | false =>
      intro y hy
      rcases List.mem_cons.mp hy with rfl | hy
      · exact hx
      · exact ih h y hy

theorem hasMultiBlockRegion_eq_false (h : r.hasMultiBlockRegion gs = .ok false) :
    ∀ g ∈ gs, (r.blocksOf g).length ≤ 1 := by
  intro g hg
  obtain ⟨G, hG, hmulti⟩ := bind_eq_ok.mp (anyM_eq_false h g hg)
  rw [region_blocksOf hG]
  simpa [pure, Except.pure] using hmulti

/-! ## Neighbours -/

section

variable (hn : r.Nested) (hlist : r.opsOf b = pre ++ o :: post)
include hn hlist

/-- An operation that is listed is found at its place. -/
theorem Nested.position? : r.position? o = .ok (some (pre ++ o :: post, pre.length)) := by
  have hmem : o ∈ r.opsOf b := by simp [hlist]
  -- the search in the list finds the only place of the operation
  obtain ⟨d, hd, hparent⟩ := exists_op?_of_parent? ((hn.op_listed o b).mp hmem)
  obtain ⟨B, hB, -⟩ := exists_block?_of_mem_opsOf hmem
  have hidx : (pre ++ o :: post).idxOf? o = _ := idxOf?_append_cons (hn.listed_once hlist).1
  have hop : r.op o = .ok d := op_eq_ok.mpr hd
  have hblock : r.block b = .ok B := block_eq_ok.mpr hB
  rw [opsOf_of hB] at hlist
  simp [Routine.position?, hop, hparent, hblock, hlist, hidx, bind, Except.bind, pure, Except.pure]

theorem Nested.prevOp? : r.prevOp? o = .ok pre.getLast? := by
  rw [Routine.prevOp?, hn.position? hlist]
  rcases List.eq_nil_or_concat pre with rfl | ⟨init, last, rfl⟩
  · rfl
  · simp [bind, Except.bind, pure, Except.pure]

theorem Nested.nextOp? : r.nextOp? o = .ok post.head? := by
  rw [Routine.nextOp?, hn.position? hlist]
  show Except.ok (pre ++ o :: post)[pre.length + 1]? = _
  rw [List.getElem?_append_right (by omega), List.head?_eq_getElem?]
  simp

end

/-- Right after an operation is right before the next one. -/
theorem Nested.pointAfter (hn : r.Nested) (hlist : r.opsOf b = pre ++ o :: next :: post) :
    r.pointAfter o = .ok (.before next) := by
  rw [Routine.pointAfter, hn.nextOp? hlist]
  rfl

theorem prevOp?_eq_ok (hl : r.Linked) (hlist : r.opsOf b = pre ++ o :: post) {answer : Option OpId}
    (h : r.prevOp? o = .ok answer) : answer = pre.getLast? :=
  (Except.ok.inj ((hl.prevOp? hlist).symm.trans h)).symm

theorem pointAfter_eq_ok (hl : r.Linked) (hlist : r.opsOf b = pre ++ o :: next :: post)
    {point : InsertPoint} (h : r.pointAfter o = .ok point) : point = .before next :=
  (Except.ok.inj ((hl.pointAfter hlist).symm.trans h)).symm

/-! ## How early a value can be released -/

/-- What it means, at one level, that an operation does not touch what passes a test. -/
theorem touchesWithin_eq_false (h : r.touchesWithin test (fuel + 1) o withOperands = .ok false) :
    (withOperands = true → ∀ v ∈ r.operandsOf o, test v = false) ∧
      (∀ v ∈ r.resultsOf o, test v = false) ∧
      ∀ g ∈ r.regionsOf o, ∀ b ∈ r.blocksOf g, ∀ p ∈ r.opsOf b,
        r.touchesWithin test fuel p true = .ok false := by
  rw [touchesWithin] at h
  obtain ⟨d, hd, h⟩ := bind_eq_ok.mp h
  rw [operandsOf_of (op_eq_ok.mp hd), resultsOf_of (op_eq_ok.mp hd), regionsOf_of (op_eq_ok.mp hd)]
  split at h
  · cases h
  · rename_i hoperands
    split at h
    · cases h
    · rename_i hresults
      refine ⟨fun hwith v hv => ?_, fun v hv => ?_, fun g hg b hb p hp => ?_⟩
      · by_contra hne
        exact hoperands (by simpa [hwith] using ⟨v, hv, by simpa using hne⟩)
      · by_contra hne
        exact hresults (List.any_eq_true.mpr ⟨v, hv, by simpa using hne⟩)
      · -- a search that says no has looked everywhere
        obtain ⟨G, hG, h⟩ := bind_eq_ok.mp (anyM_eq_false h g hg)
        rw [region_blocksOf hG] at hb
        obtain ⟨B, hB, h⟩ := bind_eq_ok.mp (anyM_eq_false h b hb)
        rw [block_opsOf hB] at hp
        exact anyM_eq_false h p hp

/-- What an operation that is passed over defines does not pass the test. -/
theorem touches_eq_false (h : r.touches test o withOperands = .ok false) (hv : v ∈ r.resultsOf o) :
    test v = false :=
  (touchesWithin_eq_false h).2.1 v hv

/-- Nor does what it reads, itself or in an operation nested in it. -/
theorem operands_of_touches (hl : r.Linked) {p : OpId} (h : r.touches test o true = .ok false)
    (hin : r.Inside o p) (hv : v ∈ r.operandsOf p) : test v = false := by
  -- the fuel goes down with the nesting
  have hdown : ∀ {fuel : Nat} {o : OpId}, r.touchesWithin test fuel o true = .ok false →
      r.Inside o p → test v = false := by
    intro fuel
    induction fuel with
    | zero =>
      intro o h
      cases h
    | succ fuel ih =>
      intro o h hin
      obtain ⟨hoperands, -, hinner⟩ := touchesWithin_eq_false h
      rcases hin.cases_head with rfl | ⟨q, hup, hin⟩
      · exact hoperands rfl v hv
      · obtain ⟨b, hparent, hholder⟩ := exists_parent?_of_up? hup
        obtain ⟨g, hg, hb⟩ := hl.holder?_iff.mp hholder
        exact ih (hinner g hg b hb q ((hl.op_listed q b).mpr hparent)) hin
  exact hdown h hin

/-- Going back stops in the same block, and has passed only what does not touch the value. -/
theorem earliestFrom_eq_ok (hl : r.Linked) {start a : OpId}
    (hlist : r.opsOf b = pre ++ start :: post) (h : r.earliestFrom test fuel start = .ok a) :
    ∃ pre' post', r.opsOf b = pre' ++ a :: post' ∧
      ∀ p ∈ pre, p ∉ pre' → r.touches test p true = .ok false := by
  induction fuel generalizing start pre post with
  | zero => cases h
  | succ fuel ih =>
    rw [earliestFrom] at h
    obtain ⟨prev?, hprev, h⟩ := bind_eq_ok.mp h
    have hprev := prevOp?_eq_ok hl hlist hprev
    subst hprev
    rcases List.eq_nil_or_concat pre with rfl | ⟨init, prev, rfl⟩
    -- at the beginning of the block the way ends
    · cases h
      exact ⟨[], post, hlist, by simp⟩
    · rw [List.concat_eq_append, List.getLast?_concat] at h
      obtain ⟨answer, htouches, h⟩ := bind_eq_ok.mp h
      cases answer with
      -- the operation before touches the value, so nothing is passed any more
      | true =>
        cases h
        exact ⟨init.concat prev, post, hlist, fun p hp hout => absurd hp hout⟩
      | false =>
        rw [List.concat_eq_append, List.append_assoc] at hlist
        obtain ⟨pre', post', hlist', hpassed⟩ := ih hlist h
        refine ⟨pre', post', hlist', fun p hp hout => ?_⟩
        rw [List.concat_eq_append, List.mem_append, List.mem_singleton] at hp
        rcases hp with hp | rfl
        · exact hpassed p hp hout
        · exact htouches

/-- The place where an indicator is released, and what has been passed on the way there. -/
theorem releaseAnchor_place (hl : r.Linked) {settings : Settings} {classes : AliasClasses}
    {i : ValueId} {front : List OpId} {anchor : OpId} (hlist : r.opsOf b = front ++ [t])
    (h : r.releaseAnchor settings classes t i = .ok anchor) :
    ∃ pre post, r.opsOf b = pre ++ anchor :: post ∧
      ∀ p ∈ front, p ∉ pre → r.touches (classes.same i) p true = .ok false := by
  unfold releaseAnchor at h
  split at h
  · exact earliestFrom_eq_ok hl hlist h
  · cases h
    exact ⟨front, [], hlist, fun p hp hout => absurd hp hout⟩

/-! ## Uses -/

theorem Op.mem_operandSlots : slot ∈ d.operandSlots v ↔ d.operands[slot]? = some v := by
  rw [Op.operandSlots, List.mem_filterMap]
  constructor
  · rintro ⟨⟨w, k⟩, hmem, hslot⟩
    obtain ⟨rfl, rfl⟩ : w = v ∧ k = slot := by simpa using hslot
    exact List.mk_mem_zipIdx_iff_getElem?.mp hmem
  · intro hslot
    exact ⟨(v, slot), List.mk_mem_zipIdx_iff_getElem?.mpr hslot, if_pos rfl⟩

/-- The uses of a value are the places where an operation that is not erased has it as operand. -/
theorem mem_uses : (o, slot) ∈ r.uses v ↔
    ∃ d, r.op? o = some d ∧ d.erased = false ∧ d.operands[slot]? = some v := by
  rw [uses, List.mem_flatMap]
  constructor
  · rintro ⟨⟨d, k⟩, hmem, huse⟩
    have hd : r.ops[k]? = some d := by simpa using List.mk_mem_zipIdx_iff_getElem?.mp hmem
    cases hlive : d.erased with
    | true => simp [hlive] at huse
    | false =>
      simp only [hlive, Bool.false_eq_true, if_false, List.mem_map] at huse
      obtain ⟨slot', hslot, huse⟩ := huse
      cases huse
      exact ⟨d, hd, hlive, Op.mem_operandSlots.mp hslot⟩
  · rintro ⟨d, hd, hlive, hslot⟩
    refine ⟨(d, o.index), List.mk_mem_zipIdx_iff_getElem?.mpr (by simpa using hd), ?_⟩
    simp only [hlive, Bool.false_eq_true, if_false, List.mem_map]
    exact ⟨slot, Op.mem_operandSlots.mpr hslot, rfl⟩

/-- A value without uses is no operand of an operation that is not erased. -/
theorem notMem_operands_of_uses (h : (r.uses v).isEmpty = true) (hd : r.op? o = some d)
    (hlive : d.erased = false) : v ∉ d.operands := by
  intro hv
  obtain ⟨slot, hslot⟩ := List.mem_iff_getElem?.mp hv
  have hmem : (o, slot) ∈ r.uses v := mem_uses.mpr ⟨d, hd, hlive, hslot⟩
  rw [List.isEmpty_iff.mp h] at hmem
  cases hmem

end Routine

end BufferOwnership
