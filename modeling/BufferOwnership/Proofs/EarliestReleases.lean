import BufferOwnership.Proofs.Advance
import BufferOwnership.Proofs.Certify
import BufferOwnership.Proofs.Pairing

/-!
# Releases stand as early as they can

If releases are hoisted, the place of a release is found by going back from the end of the block,
past every operation that does not touch the class. So nothing behind the release touches the class,
and what stands right before it does. The release itself touches its class, so it must not come to
stand inside an operation that was passed: where the search came to an end, an operation does not
lie around its own block (`Nested.not_inside_of_untouched`).
-/

namespace BufferOwnership

variable {α : Type}

namespace Routine

variable {r : Routine} {o p q : OpId} {b : BlockId} {fuel : Nat} {test : ValueId → Bool}
variable {withOperands : Bool}

/-! ## What a search has seen -/

theorem anyM_eq_true {ε : Type} {l : List α} {test : α → Except ε Bool}
    (h : l.anyM test = .ok true) : ∃ x ∈ l, test x = .ok true := by
  induction l with
  | nil => cases h
  | cons x l ih =>
    rw [List.anyM_cons] at h
    obtain ⟨answer, hx, h⟩ := bind_eq_ok.mp h
    cases answer with
    | true => exact ⟨x, by simp, hx⟩
    | false =>
      obtain ⟨y, hy, htest⟩ := ih h
      exact ⟨y, by simp [hy], htest⟩

/-- A search that says so has found something. -/
theorem Nested.touches_of_touchesWithin (hn : r.Nested)
    (h : r.touchesWithin test fuel o withOperands = .ok true) : r.Touches test o withOperands := by
  induction fuel generalizing o withOperands with
  | zero => cases h
  | succ fuel ih =>
    rw [touchesWithin] at h
    obtain ⟨d, hd, h⟩ := bind_eq_ok.mp h
    have hd := op_eq_ok.mp hd
    split at h
    · rename_i hoperands
      exact .inl (by simpa [operandsOf_of hd] using hoperands)
    split at h
    · rename_i hresults
      exact .inr (.inl (by simpa [resultsOf_of hd] using hresults))
    -- found further inside
    obtain ⟨g, hg, h⟩ := anyM_eq_true h
    obtain ⟨G, hG, h⟩ := bind_eq_ok.mp h
    obtain ⟨c, hc, h⟩ := anyM_eq_true h
    obtain ⟨B, hB, h⟩ := bind_eq_ok.mp h
    obtain ⟨q, hq, h⟩ := anyM_eq_true h
    refine .inr (.inr (hn.touches_inner_iff.mpr ⟨g, ?_, c, ?_, q, ?_, ih h⟩))
    · rwa [regionsOf_of hd]
    · rwa [region_blocksOf hG]
    · rwa [block_opsOf hB]

/-- A search that finds nothing has searched what is directly inside, with less fuel. -/
theorem Nested.untouched_step (hn : r.Nested)
    (h : r.touchesWithin test fuel o withOperands = .ok false) (hup : r.up? q = some o) :
    ∃ k < fuel, r.touchesWithin test k q true = .ok false := by
  cases fuel with
  | zero => cases h
  | succ fuel =>
    obtain ⟨c, hparent, hholder⟩ := exists_parent?_of_up? hup
    obtain ⟨g, hg, hc⟩ := hn.holder?_iff.mp hholder
    exact ⟨fuel, Nat.lt_succ_self _,
      (touchesWithin_eq_false h).2.2 g hg c hc q ((hn.op_listed q c).mpr hparent)⟩

theorem Nested.untouched_inside (hn : r.Nested)
    (h : r.touchesWithin test fuel o true = .ok false) (hin : r.Inside o p) :
    ∃ k ≤ fuel, r.touchesWithin test k p true = .ok false := by
  induction hin with
  | refl => exact ⟨fuel, Nat.le_refl _, h⟩
  | tail _ hup ih =>
    obtain ⟨k, hk, hm⟩ := ih
    obtain ⟨k', hk', hp⟩ := hn.untouched_step hm hup
    exact ⟨k', Nat.le_trans (Nat.le_of_lt hk') hk, hp⟩

section

variable (hn : r.Nested) (h : r.touchesWithin test fuel o withOperands = .ok false)
include hn h

/-- A search that finds nothing has missed nothing. -/
theorem Nested.not_touches : ¬ r.Touches test o withOperands := by
  have hself : ∀ {k : Nat} {p : OpId} {w : Bool}, r.touchesWithin test k p w = .ok false →
      (w = true → ∀ v ∈ r.operandsOf p, test v = false) ∧ ∀ v ∈ r.resultsOf p, test v = false := by
    intro k p w hp
    cases k with
    | zero => cases hp
    | succ k => exact ⟨(touchesWithin_eq_false hp).1, (touchesWithin_eq_false hp).2.1⟩
  rintro (⟨hw, v, hv, ht⟩ | ⟨v, hv, ht⟩ | ⟨q, p, hup, hin, v, hv, ht⟩)
  · simp [(hself h).1 hw v hv] at ht
  · simp [(hself h).2 v hv] at ht
  · obtain ⟨k, -, hq⟩ := hn.untouched_step h hup
    obtain ⟨k', -, hp⟩ := hn.untouched_inside hq hin
    rcases hv with hv | hv
    · simp [(hself hp).1 rfl v hv] at ht
    · simp [(hself hp).2 v hv] at ht

/-- What was searched to the end does not lie around what is around it. A circle would bring the
search back to where it began, with less fuel each time. -/
theorem Nested.not_inside_of_untouched (hup : r.up? o = some p) : ¬ r.Inside o p := by
  induction fuel using Nat.strong_induction_on generalizing withOperands with
  | _ fuel ih =>
    intro hin
    obtain ⟨q, hq, hqp⟩ : ∃ q, r.up? q = some o ∧ r.Inside q o := by
      rcases hin.cases_head with rfl | ⟨q, hq, hqp⟩
      · exact ⟨o, hup, .refl⟩
      · exact ⟨q, hq, hqp.tail hup⟩
    obtain ⟨k, hk, hsearched⟩ := hn.untouched_step h hq
    obtain ⟨k', hk', hagain⟩ := hn.untouched_inside hsearched hqp
    exact ih k' (Nat.lt_of_le_of_lt hk' hk) hagain hin

/-- Nor does it lie around the block in which it stands. -/
theorem Nested.not_insideBlock_of_untouched (ho : o ∈ r.opsOf b) : ¬ r.InsideBlock o b := by
  rintro ⟨p, hin, hholder⟩
  have hup : r.up? o = some p := (hn.up?_of_mem ho).trans hholder
  exact hn.not_inside_of_untouched h hup hin

end

/-- Going back from an operation stops right after the first one that touches the value. -/
theorem Nested.earliestFrom_stops (hn : r.Nested) {start a : OpId} {pre post : List OpId}
    (hlist : r.opsOf b = pre ++ start :: post) (h : r.earliestFrom test fuel start = .ok a) :
    ∃ before after, pre = before ++ after ∧ (after ++ [start]).head? = some a ∧
      (∀ p ∈ after, r.touches test p true = .ok false) ∧
      ∀ p, before.getLast? = some p → r.touches test p true = .ok true := by
  induction fuel generalizing start pre post with
  | zero => cases h
  | succ fuel ih =>
    rw [earliestFrom, bind_of_ok (hn.prevOp? hlist)] at h
    rcases List.eq_nil_or_concat pre with rfl | ⟨init, prev, rfl⟩
    · cases h
      exact ⟨[], [], rfl, rfl, by simp, by simp⟩
    · rw [List.concat_eq_append] at hlist h ⊢
      rw [List.getLast?_concat] at h
      obtain ⟨answer, htouches, h⟩ := bind_eq_ok.mp h
      cases answer with
      | true =>
        -- it touches the value, so this is as early as it gets
        cases h
        refine ⟨init ++ [prev], [], by simp, rfl, by simp, fun p hp => ?_⟩
        rw [List.getLast?_concat] at hp
        exact Option.some.inj hp ▸ htouches
      | false =>
        rw [List.append_assoc] at hlist
        obtain ⟨before, after, rfl, ha, hpassed, hstop⟩ := ih hlist h
        refine ⟨before, after ++ [prev], by simp, ?_, fun p hp => ?_, hstop⟩
        · rw [List.head?_append, ha]
          rfl
        · rcases List.mem_append.mp hp with hp | hp
          · exact hpassed p hp
          · exact List.mem_singleton.mp hp ▸ htouches

end Routine

open Routine

/-! ## With one operation more -/

section Emitted

variable {r r' : Routine} {b : BlockId} {pre post : List OpId} {kind : OpKind}
variable {operands : List ValueId} {types : List Ty} {o p q : OpId}
variable {test : ValueId → Bool} {withOperands : Bool}
variable (h : Emitted r r' b pre post kind operands types)
include h

namespace Emitted

theorem holder?_eq (c : BlockId) : r'.holder? c = r.holder? c := by
  rw [holder?, holder?, h.home?_eq, funext (owner?_congr h.regions)]

theorem up?_eq (p : OpId) : r'.up? p = if p = r.freshOp then r.holder? b else r.up? p := by
  rw [up?, up?, h.parent?_eq, funext h.holder?_eq]
  split <;> rfl

omit h in
theorem up?_freshOp (r : Routine) : r.up? r.freshOp = none := by
  simp [up?, parent?, op?_freshOp]

theorem up?_old (hup : r.up? q = some o) : r'.up? q = some o := by
  have hq : q ≠ r.freshOp := by
    rintro rfl
    rw [up?_freshOp] at hup
    cases hup
  rw [h.up?_eq, if_neg hq, hup]

theorem inside_old (hin : r.Inside o p) : r'.Inside o p := by
  induction hin with
  | refl => exact .refl
  | tail _ hup ih => exact ih.step (h.up?_old hup)

/-- The new operation is inside what is around its block, and changes nothing else. -/
theorem inside_cases (hn : r.Nested) (hin : r'.Inside o p) :
    r.Inside o p ∨ p = r.freshOp ∧ r.InsideBlock o b := by
  induction hin with
  | refl => exact .inl .refl
  | @tail m p _ hup ih =>
    have hm : m ≠ r.freshOp := by
      -- the new operation holds no block
      rintro rfl
      obtain ⟨c, -, hholder⟩ := exists_parent?_of_up? hup
      rw [h.holder?_eq] at hholder
      obtain ⟨g, hg, -⟩ := hn.holder?_iff.mp hholder
      simp [regionsOf, op?_freshOp] at hg
    have hom := ih.resolve_right fun hnew => hm hnew.1
    rw [h.up?_eq] at hup
    split at hup
    · rename_i hp
      exact .inr ⟨hp, m, hom, hup⟩
    · exact .inl (hom.step hup)

/-- What an operation touches it still touches. -/
theorem touches_old (ho : o ≠ r.freshOp) (ht : r.Touches test o withOperands) :
    r'.Touches test o withOperands := by
  have hold : ∀ {p : OpId}, p ≠ r.freshOp →
      r'.operandsOf p = r.operandsOf p ∧ r'.resultsOf p = r.resultsOf p := fun hp =>
    ⟨by rw [h.operandsOf_eq, if_neg hp], by rw [h.resultsOf_eq, if_neg hp]⟩
  rcases ht with ⟨hw, v, hv, ht⟩ | ⟨v, hv, ht⟩ | ⟨q, p, hup, hin, v, hv, ht⟩
  · exact .inl ⟨hw, v, (hold ho).1 ▸ hv, ht⟩
  · exact .inr (.inl ⟨v, (hold ho).2 ▸ hv, ht⟩)
  · have hp : p ≠ r.freshOp := by
      rintro rfl
      simp [operandsOf, resultsOf, op?_freshOp] at hv
    refine .inr (.inr ⟨q, p, h.up?_old hup, h.inside_old hin, v, ?_, ht⟩)
    rwa [(hold hp).1, (hold hp).2]

/-- An operation that is not around the block touches nothing that it did not touch before. -/
theorem touches_iff (hn : r.Nested) (ho : o ≠ r.freshOp) (hout : ¬ r.InsideBlock o b) :
    r'.Touches test o withOperands ↔ r.Touches test o withOperands := by
  refine ⟨?_, h.touches_old ho⟩
  rintro (⟨hw, v, hv, ht⟩ | ⟨v, hv, ht⟩ | ⟨q, p, hup, hin, v, hv, ht⟩)
  · rw [h.operandsOf_eq, if_neg ho] at hv
    exact .inl ⟨hw, v, hv, ht⟩
  · rw [h.resultsOf_eq, if_neg ho] at hv
    exact .inr (.inl ⟨v, hv, ht⟩)
  · -- the way down to what touches the value does not lead to the new operation
    have hp : p ≠ r.freshOp := by
      rintro rfl
      rcases h.inside_cases hn (hin.head hup) with hold | ⟨-, hblock⟩
      · rcases hold.cases_tail with heq | ⟨m, -, hm⟩
        · exact ho heq.symm
        · rw [up?_freshOp] at hm
          cases hm
      · exact hout hblock
    have hq : r.up? q = some o := by
      rw [h.up?_eq] at hup
      split at hup
      · exact absurd ⟨o, .refl, hup⟩ hout
      · exact hup
    have hqp := (h.inside_cases hn hin).resolve_right fun hnew => hp hnew.1
    rw [h.operandsOf_eq, h.resultsOf_eq, if_neg hp, if_neg hp] at hv
    exact .inr (.inr ⟨q, p, hq, hqp, v, hv, ht⟩)

end Emitted

end Emitted

/-! ## Where a release is put -/

variable {r : Routine} {s s' : Session} {b : BlockId} {t x anchor : OpId} {front : List OpId}
variable {i : ValueId} {settings : Settings} {escaping indicators : List ValueId}

/-- An indicator is released at the end, or as early as nothing that touches its class is passed. -/
theorem Routine.Nested.releaseAnchor_stops (hn : r.Nested) {classes : AliasClasses}
    (hlist : r.opsOf b = front ++ [t]) (h : r.releaseAnchor settings classes t i = .ok anchor) :
    ∃ before after, front = before ++ after ∧ (after ++ [t]).head? = some anchor ∧
      (settings.hoist = false → after = []) ∧
      (settings.hoist = true → (∀ p ∈ after, r.touches (classes.same i) p true = .ok false) ∧
        ∀ p, before.getLast? = some p → r.touches (classes.same i) p true = .ok true) := by
  unfold Routine.releaseAnchor at h
  split at h
  · rename_i hhoist
    obtain ⟨before, after, hsplit, hhead, hpassed, hstop⟩ := hn.earliestFrom_stops hlist h
    exact ⟨before, after, hsplit, hhead, by simp [hhoist], fun _ => ⟨hpassed, hstop⟩⟩
  · rename_i hhoist
    cases h
    exact ⟨front, [], by simp, rfl, fun _ => rfl, fun h => absurd h hhoist⟩

/-- A retain that releases an indicator, as it stands in a block that ends in `t`. -/
structure ReleasePlaced (hoist : Bool) (c : AliasClasses) (r : Routine) (b : BlockId) (t x : OpId)
    (i : ValueId) : Prop where
  entry : r.op? x = some { kind := .retain 0, operands := [i], results := [], regions := []
                           parent := some b, erased := false }
  early : hoist = true → ∃ before after, r.opsOf b = before ++ x :: (after ++ [t]) ∧
    (∀ p ∈ after, ¬ r.Touches (c.same i) p true) ∧
    ∀ p, before.getLast? = some p → r.Touches (c.same i) p true
  late : hoist = false → ∃ before, r.opsOf b = before ++ [x, t]

/-- The release of one indicator. -/
theorem releaseIndicator_placed (hl : s.routine.Linked) (hlist : s.routine.opsOf b = front ++ [t])
    (h : Pass.releaseIndicator settings t i s = .ok (x, s')) :
    ReleasePlaced settings.hoist s.aliases s'.routine b t x i ∧ s'.routine.Linked ∧
      (∃ front', s'.routine.opsOf b = front' ++ [t]) ∧ s'.aliases = s.aliases := by
  replace h := Pass.aliases_bind_eq_ok.mp h
  obtain ⟨anchor, hanchor, hretain⟩ := Pass.ask_bind_eq_ok.mp h
  obtain ⟨hemit, haliases'⟩ := Pass.retain_eq_ok hretain
  obtain ⟨before, after, rfl, hhead, hlate, hearly⟩ :=
    hl.releaseAnchor_stops hlist hanchor
  obtain ⟨rest, hrest⟩ := List.head?_eq_some_iff.mp hhead
  rw [List.append_assoc, hrest] at hlist
  obtain ⟨rfl, hem⟩ := Emit.operation_before hl hlist hemit
  have hlist' : s'.routine.opsOf b = before ++ s.routine.freshOp :: (after ++ [t]) := by
    rw [hem.opsOf_eq, if_pos rfl, hrest]
  -- what stood in the block touches afterwards what it touched before
  have hold : ∀ p ∈ s.routine.opsOf b, p ≠ s.routine.freshOp := by
    rintro p hp rfl
    exact hl.op?_of_listed hp (op?_freshOp _)
  refine ⟨⟨hem.op?_fresh, fun hhoist => ?_, fun hhoist => ?_⟩, hl.operation hemit, ?_, haliases'⟩
  · obtain ⟨hpassed, hstop⟩ := hearly hhoist
    refine ⟨before, after, hlist', fun p hp => ?_, fun p hp => ?_⟩
    · have hmem : p ∈ s.routine.opsOf b := by
        rw [hlist, ← hrest]
        simp [hp]
      have hout := hl.not_insideBlock_of_untouched (hpassed p hp) hmem
      rw [hem.touches_iff hl.toNested (hold p hmem) hout]
      exact hl.not_touches (hpassed p hp)
    · have hmem : p ∈ s.routine.opsOf b := by
        rw [hlist]
        exact List.mem_append_left _ (List.mem_of_getLast? hp)
      exact hem.touches_old (hold p hmem) (hl.touches_of_touchesWithin (hstop p hp))
  · obtain rfl := hlate hhoist
    exact ⟨before, hlist'⟩
  · exact ⟨before ++ s.routine.freshOp :: after, by simp [hlist']⟩

theorem releaseUnescaped_escapes (hescapes : ∃ v ∈ escaping, s.aliases.same v i = true) :
    Pass.releaseUnescaped settings t escaping (i :: indicators) s =
      Pass.releaseUnescaped settings t escaping indicators s := by
  show (if escaping.any fun v => s.aliases.same v i then _ else _ : Pass Unit) s = _
  rw [if_pos (List.any_eq_true.mpr hescapes)]

theorem releaseUnescaped_releases (hapart : ∀ v ∈ escaping, s.aliases.same v i = false) :
    Pass.releaseUnescaped settings t escaping (i :: indicators) s =
      (Pass.releaseIndicator settings t i >>= fun _ =>
        Pass.releaseUnescaped settings t escaping indicators) s := by
  show (if escaping.any fun v => s.aliases.same v i then _ else _ : Pass Unit) s = _
  rw [if_neg (by simpa using hapart)]

/-- Each indicator that no escaping value aliases is released once, by the classes of the start. -/
theorem releaseUnescaped_placed (hl : s.routine.Linked) (hlist : s.routine.opsOf b = front ++ [t])
    {u : Unit} (h : Pass.releaseUnescaped settings t escaping indicators s = .ok (u, s'))
    (hi : i ∈ indicators) (hapart : ∀ v ∈ escaping, s.aliases.same v i = false) :
    ∃ pre post mid x mid', indicators = pre ++ i :: post ∧
      Pass.releaseUnescaped settings t escaping pre s = .ok ((), mid) ∧
      Pass.releaseIndicator settings t i mid = .ok (x, mid') ∧
      Pass.releaseUnescaped settings t escaping post mid' = .ok ((), s') ∧
      ReleasePlaced settings.hoist s.aliases mid'.routine b t x i := by
  induction indicators generalizing s front with
  | nil => cases hi
  | cons j indicators ih =>
    by_cases hescapes : ∃ v ∈ escaping, s.aliases.same v j = true
    · have hne : i ≠ j := by
        rintro rfl
        obtain ⟨v, hv, hsame⟩ := hescapes
        simp [hapart v hv] at hsame
      rw [releaseUnescaped_escapes hescapes] at h
      obtain ⟨pre, post, mid, x, mid', rfl, hpre, hrest⟩ :=
        ih hl hlist h ((List.mem_cons.mp hi).resolve_left hne) hapart
      exact ⟨j :: pre, post, mid, x, mid', rfl, by rw [releaseUnescaped_escapes hescapes, hpre],
        hrest⟩
    · have hj : ∀ v ∈ escaping, s.aliases.same v j = false := by simpa using hescapes
      rw [releaseUnescaped_releases hj] at h
      obtain ⟨y, next, hrelease, hothers⟩ := Pass.bind_eq_ok.mp h
      obtain ⟨hplaced, hl', ⟨front', hlist'⟩, haliases⟩ := releaseIndicator_placed hl hlist hrelease
      by_cases hij : i = j
      · subst hij
        exact ⟨[], indicators, s, y, next, rfl, rfl, hrelease, hothers, hplaced⟩
      · -- a release joins no classes
        rw [← haliases] at hapart ⊢
        obtain ⟨pre, post, mid, x, mid', rfl, hpre, hrest⟩ :=
          ih hl' hlist' hothers ((List.mem_cons.mp hi).resolve_left hij) hapart
        refine ⟨j :: pre, post, mid, x, mid', rfl, ?_, hrest⟩
        rw [releaseUnescaped_releases hj]
        exact Pass.bind_eq_ok.mpr ⟨y, next, hrelease, hpre⟩

/-! ## Closing has an answer -/

/-- A block of a routine without circles, and its last operation. -/
structure Routine.Closable (r : Routine) (b : BlockId) (t : OpId) : Prop where
  coherent : r.Coherent
  listed : t ∈ r.opsOf b
  reached : r.Reached t

/-- All that stands beside a reached operation is reached. -/
theorem Routine.Closable.reached_of_mem (h : r.Closable b t) {p : OpId} (hp : p ∈ r.opsOf b) :
    r.Reached p := by
  have hparent := (h.coherent.op_listed t b).mp h.listed
  obtain ⟨m, hholder, hm⟩ := h.reached.exists_holder h.coherent.root_unlinked hparent
  exact hm.step ((h.coherent.up?_of_mem hp).trans hholder)

theorem Routine.Closable.emit (h : r.Closable b t) (hanchor : anchor ∈ r.opsOf b) (kind : OpKind)
    (operands : List ValueId) (types : List Ty)
    (hknown : ∀ v ∈ operands, v.index < r.values.size) :
    ∃ r', Emit.operation (.before anchor) kind operands types 0 r = .ok (r.freshOp, r') ∧
      r'.Closable b t ∧ r.values.size ≤ r'.values.size := by
  obtain ⟨pre, post, hlist⟩ := List.append_of_mem hanchor
  obtain ⟨r', hemit, hem⟩ := h.coherent.emit hlist kind operands types
  refine ⟨r', hemit, ⟨hem.coherent h.coherent (h.coherent.operation hemit) hknown, ?_, ?_⟩, ?_⟩
  · have hlisted := h.listed
    rw [hem.opsOf_old] at hlisted
    rw [hem.opsOf_eq, if_pos rfl]
    rcases List.mem_append.mp hlisted with hpre | hpost
    · exact List.mem_append_left _ hpre
    · exact List.mem_append_right _ (List.mem_cons_of_mem _ hpost)
  · rw [Reached, hem.root]
    exact hem.inside_old h.reached
  · rw [hem.size_values]
    omega

/-- A step that has an answer, and leaves the block so that it can be closed. -/
def Pass.Answers {α : Type} (step : Pass α) (b : BlockId) (t : OpId) (s : Session) : Prop :=
  ∃ a s', step s = .ok (a, s') ∧ s'.routine.Closable b t ∧
    s.routine.values.size ≤ s'.routine.values.size

namespace Pass.Answers

variable {β : Type} {next : α → Pass β}

theorem pure (hc : s.routine.Closable b t) (a : α) : Answers (Pure.pure a : Pass α) b t s :=
  ⟨a, s, rfl, hc, Nat.le_refl _⟩

theorem bind {step : Pass α} (h : step.Answers b t s)
    (hnext : ∀ a s', step s = .ok (a, s') → s'.routine.Closable b t → s.routine.values.size ≤
      s'.routine.values.size → (next a).Answers b t s') : (step >>= next).Answers b t s := by
  obtain ⟨a, mid, hstep, hc, hle⟩ := h
  obtain ⟨c, s', hrest, hc', hle'⟩ := hnext a mid hstep hc hle
  exact ⟨c, s', Pass.bind_eq_ok.mpr ⟨a, mid, hstep, hrest⟩, hc', Nat.le_trans hle hle'⟩

theorem ask_bind {query : Routine → Except Fault α} {a : α} (hquery : query s.routine = .ok a)
    (hnext : (next a).Answers b t s) : (Pass.ask query >>= next).Answers b t s := by
  obtain ⟨c, s', hrest, hc, hle⟩ := hnext
  exact ⟨c, s', Pass.bind_eq_ok.mpr ⟨a, s, Pass.ask_eq_ok.mpr ⟨hquery, rfl⟩, hrest⟩, hc, hle⟩

theorem aliases_bind {next : AliasClasses → Pass β} (hnext : (next s.aliases).Answers b t s) :
    (Pass.aliases >>= next).Answers b t s := by
  obtain ⟨c, s', hrest, hc, hle⟩ := hnext
  exact ⟨c, s', Pass.bind_eq_ok.mpr ⟨s.aliases, s, rfl, hrest⟩, hc, hle⟩

section Closable

variable (hc : s.routine.Closable b t)
include hc

theorem retain {retained owned : List ValueId} (hanchor : anchor ∈ s.routine.opsOf b)
    (hknown : ∀ v ∈ retained ++ owned, v.index < s.routine.values.size) :
    (Pass.retain (.before anchor) retained owned).Answers b t s := by
  obtain ⟨r', hemit, hc', hle⟩ := hc.emit hanchor (.retain retained.length) (retained ++ owned)
    (retained.map fun _ => .ownership) hknown
  exact ⟨_, _, Pass.bind_eq_ok.mpr ⟨(), _, rfl, Pass.edit_eq_ok.mpr ⟨r', hemit, rfl⟩⟩, hc', hle⟩

theorem null : (Pass.null (.before t)).Answers b t s := by
  obtain ⟨r', hemit, hc', hle⟩ := hc.emit hc.listed .null [] [.ownership] (by simp)
  have hsingle : Emit.null (.before t) s.routine = .ok (⟨s.routine.values.size⟩, r') :=
    BufferOwnership.bind_of_ok hemit
  exact ⟨_, _, Pass.bind_eq_ok.mpr ⟨(), _, rfl, Pass.edit_eq_ok.mpr ⟨r', hsingle, rfl⟩⟩, hc', hle⟩

theorem releaseIndicator (hi : i.index < s.routine.values.size) :
    (Pass.releaseIndicator settings t i).Answers b t s := by
  obtain ⟨anchor, hanchor, hquery⟩ := hc.coherent.releaseAnchor (fun _ hp => hc.reached_of_mem hp)
    hc.listed settings s.aliases i
  exact aliases_bind (ask_bind hquery (retain hc hanchor (by simpa using hi)))

theorem releaseUnescaped (hknown : ∀ i ∈ indicators, i.index < s.routine.values.size) :
    (Pass.releaseUnescaped settings t escaping indicators).Answers b t s := by
  induction indicators generalizing s with
  | nil => exact pure hc ()
  | cons i indicators ih =>
    have hrest : ∀ j ∈ indicators, j.index < s.routine.values.size :=
      fun j hj => hknown j (by simp [hj])
    refine aliases_bind ?_
    split
    · exact ih hc hrest
    · refine (releaseIndicator hc (hknown i (by simp))).bind fun _ s' _ hc' hle => ?_
      exact ih hc' fun j hj => Nat.lt_of_lt_of_le (hrest j hj) hle

theorem settleGroup {group : EscapeGroup}
    (hknown : ∀ v ∈ group.escaping.map (·.2) ++ group.owned, v.index < s.routine.values.size) :
    (Pass.settleGroup t group).Answers b t s := by
  unfold Pass.settleGroup
  split
  · exact pure hc _
  · refine (retain hc hc.listed hknown).bind fun x mid hretain hc' _ => ?_
    obtain ⟨hemit, -⟩ := Pass.retain_eq_ok hretain
    obtain ⟨rfl, _, _, _, -, hem⟩ := Emit.operation_emitted hemit
    exact ask_bind (op_of hem.op?_fresh) ⟨_, _, rfl, hc', Nat.le_refl _⟩

theorem settleGroups {groups : List EscapeGroup}
    (hknown : ∀ group ∈ groups, ∀ v ∈ group.escaping.map (·.2) ++ group.owned,
      v.index < s.routine.values.size) : (Pass.settleGroups t groups).Answers b t s := by
  induction groups generalizing s with
  | nil => exact pure hc _
  | cons group groups ih =>
    refine (settleGroup hc (hknown group (by simp))).bind fun _ s' _ hc' hle => ?_
    refine (ih hc' fun other hother v hv => ?_).bind fun _ s'' _ hc'' _ => pure hc'' _
    exact Nat.lt_of_lt_of_le (hknown other (by simp [hother]) v hv) hle

theorem fillSlots {settled : List (Nat × ValueId)} {null? : Option ValueId} {positions : List Nat} :
    (Pass.fillSlots t settled null? positions).Answers b t s := by
  induction positions generalizing s null? with
  | nil => exact pure hc _
  | cons position positions ih =>
    unfold Pass.fillSlots
    split
    · exact (ih hc).bind fun _ _ _ hc' _ => pure hc' _
    · exact (ih hc).bind fun _ _ _ hc' _ => pure hc' _
    · refine (null hc).bind fun _ s' _ hc' _ => ?_
      exact (ih hc').bind fun _ _ _ hc'' _ => pure hc'' _

/-- A block of a routine without circles can be closed with any indicators that it knows. -/
theorem closeBlock {owned : ValueSet} (hknown : ∀ i ∈ owned, i.index < s.routine.values.size) :
    (Pass.closeBlock settings t owned).Answers b t s := by
  obtain ⟨d, hd⟩ := hc.coherent.exists_op?_of_mem hc.listed
  have hoperands : ∀ v ∈ d.operands, v.index < s.routine.values.size := fun v hv =>
    hc.coherent.operands_known t v (by rwa [operandsOf_of hd])
  have hquery : (do s.routine.buffers (← s.routine.op t).operands) =
      .ok (d.operands.filter s.routine.holdsBuffer) := by
    rw [BufferOwnership.bind_of_ok (op_of hd), buffers_ok hoperands]
  refine ask_bind hquery ((releaseUnescaped hc hknown).bind fun _ mid _ hc₁ hle => ?_)
  refine aliases_bind ?_
  refine (settleGroups hc₁ fun group hgroup v hv => ?_).bind fun _ s' _ hc₂ _ => fillSlots hc₂
  obtain ⟨hescaping, howned⟩ := Pass.mem_planEscapes hgroup
  apply Nat.lt_of_lt_of_le _ hle
  rcases List.mem_append.mp hv with hv | hv
  · obtain ⟨e, he, rfl⟩ := List.mem_map.mp hv
    exact hoperands e.2 (List.mem_filter.mp (hescaping e he)).1
  · exact hknown v (howned v hv)

end Closable

end Pass.Answers

/-! ## The releases of a block -/

/-- What a block owns and does not send on it releases, at the earliest place that the alias classes
allow if releases are hoisted, and before its last operation if not. In a well-formed routine a
reached block can always be closed. -/
theorem closeBlock_releases_early {owned : ValueSet} (hl : s.routine.Linked)
    (hlist : s.routine.opsOf b = front ++ [t]) :
    (s.routine.WellFormed → s.routine.Reached t →
      (∀ i ∈ owned, i.index < s.routine.values.size) →
        ∃ acquired s', Pass.closeBlock settings t owned s = .ok (acquired, s')) ∧
    ∀ acquired s', Pass.closeBlock settings t owned s = .ok (acquired, s') → ∀ i ∈ owned,
      (∀ v ∈ s.routine.operandsOf t, s.routine.holdsBuffer v = true →
        s.aliases.same v i = false) →
      ∃ escaping pre post mid x mid' last,
        escaping = (s.routine.operandsOf t).filter s.routine.holdsBuffer ∧
        owned.toList = pre ++ i :: post ∧
        Pass.releaseUnescaped settings t escaping pre s = .ok ((), mid) ∧
        Pass.releaseIndicator settings t i mid = .ok (x, mid') ∧
        Pass.releaseUnescaped settings t escaping post mid' = .ok ((), last) ∧
        ReleasePlaced settings.hoist s.aliases mid'.routine b t x i ∧
        s'.routine.op? x = mid'.routine.op? x := by
  refine ⟨fun hw hreached hknown => ?_, fun acquired s' h i hi hapart => ?_⟩
  · have hc : s.routine.Closable b t := ⟨hw.coherent, by simp [hlist], hreached⟩
    have hanswers : (Pass.closeBlock settings t owned).Answers b t s := .closeBlock hc hknown
    obtain ⟨acquired, s', h, -⟩ := hanswers
    exact ⟨acquired, s', h⟩
  · obtain ⟨escaping, last, settled, mid₂, rfl, hrelease, hsettle, hfill⟩ := Pass.closeBlock_eq_ok h
    have hapart' : ∀ v ∈ (s.routine.operandsOf t).filter s.routine.holdsBuffer,
        s.aliases.same v i = false := by
      intro v hv
      obtain ⟨hv, hbuffer⟩ := List.mem_filter.mp hv
      exact hapart v hv hbuffer
    obtain ⟨pre, post, mid, x, mid', hsplit, hpre, hone, hpost, hplaced⟩ :=
      releaseUnescaped_placed hl hlist hrelease hi hapart'
    refine ⟨_, pre, post, mid, x, mid', last, rfl, hsplit, hpre, hone, hpost, hplaced, ?_⟩
    -- what is inserted afterwards leaves the release as it is
    have hrest : Pairs (fun _ => True) (fun _ => True) mid' s' :=
      ((releaseUnescaped_pairs (by simp) hpost).trans
        (settleGroups_pairs (by simp) (by simp) hsettle)).trans (fillSlots_pairs hfill)
    rw [hplaced.entry]
    exact hrest.op?_of_some hplaced.entry

/-- Two buffers with their indicators. The first one is used in a branch. -/
def staggered : Edit Unit := do
  let entry : InsertPoint := .atEnd ⟨0⟩
  let first ← Emit.alloc entry (.buffer .f32 1)
  let _ ← Emit.own entry first
  let second ← Emit.alloc entry (.buffer .f32 1)
  let _ ← Emit.own entry second
  let choice ← Emit.conditional entry ⟨0⟩ [] false
  let _ ← Emit.generic (.atEnd choice.thenBlock) "use" [first] [] []
  let _ ← Emit.yield (.atEnd choice.thenBlock) []
  let _ ← Emit.ret entry []

/-- The routine `staggered` makes, with a test as parameter, and the indicators recorded. -/
def staggeredSession : Session where
  routine := staggered.build "staggered" [.scalar .i1]
  aliases := (AliasClasses.empty.setIndicator ⟨1⟩ ⟨2⟩).setIndicator ⟨3⟩ ⟨4⟩
  tally := {}

/-- The first buffer is released behind the branch that uses it, the second before the branch. -/
theorem staggeredSession_releases_early :
    staggeredSession.routine.WellFormed ∧
      ∃ acquired s', Pass.closeBlock {} ⟨8⟩ (.ofList [⟨2⟩, ⟨4⟩]) staggeredSession =
        .ok (acquired, s') ∧
      s'.routine.opsOf ⟨0⟩ = [⟨1⟩, ⟨2⟩, ⟨3⟩, ⟨4⟩, ⟨10⟩, ⟨5⟩, ⟨9⟩, ⟨8⟩] ∧
      ∀ i ∈ ValueSet.ofList [⟨2⟩, ⟨4⟩], ∃ x mid,
        ReleasePlaced true staggeredSession.aliases mid ⟨0⟩ ⟨8⟩ x i ∧
          s'.routine.op? x = mid.op? x := by
  have hw : staggeredSession.routine.WellFormed := Routine.wellFormed_of_check (by decide +kernel)
  have hlist : staggeredSession.routine.opsOf ⟨0⟩ = [⟨1⟩, ⟨2⟩, ⟨3⟩, ⟨4⟩, ⟨5⟩] ++ [⟨8⟩] := by
    decide +kernel
  have hsent : staggeredSession.routine.operandsOf ⟨8⟩ = [] := by decide +kernel
  obtain ⟨⟨acquired, s'⟩, h, hops⟩ :=
    exists_of_check (x := Pass.closeBlock {} ⟨8⟩ (.ofList [⟨2⟩, ⟨4⟩]) staggeredSession)
      (P := fun a => a.2.routine.opsOf ⟨0⟩ = [⟨1⟩, ⟨2⟩, ⟨3⟩, ⟨4⟩, ⟨10⟩, ⟨5⟩, ⟨9⟩, ⟨8⟩])
      (by decide +kernel)
  refine ⟨hw, acquired, s', h, hops, fun i hi => ?_⟩
  obtain ⟨-, -, -, -, x, mid', -, -, -, -, -, -, hplaced, hkept⟩ :=
    (closeBlock_releases_early hw.linked hlist).2 acquired s' h i hi (by simp [hsent])
  exact ⟨x, mid'.routine, hplaced, hkept⟩

end BufferOwnership
