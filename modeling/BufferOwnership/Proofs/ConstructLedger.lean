import BufferOwnership.Proofs.BlockLedger
import BufferOwnership.Proofs.ConstructWalk

/-!
# The ledger of a construct

The terminators in a construct consume what the regions hand on. What the construct itself consumes
are the owned indicators that it takes over with its operands; for an operand whose indicator stays
behind it gets a null. What it leaves are the indicators among its results.
-/

namespace BufferOwnership

open Routine

variable {f r r' : Routine} {s s' : Session} {v i : ValueId} {o t : OpId} {b : BlockId}
variable {outs : List RegionOutcome} {site : ConstructSite} {out : RegionOutcome}
variable {front rest : List OpId} {indicators : List ValueId} {point : InsertPoint} {d : Op}
variable {u : Unit}

/-! ## What is acquired -/

/-- Indicators that an operation leaves behind: all of them are new and different. -/
structure Acquired (f r r' : Routine) (acquired : List ValueId) : Prop where
  introduced : ∀ i ∈ acquired, Introduced f r' i
  fresh : ∀ i ∈ acquired, r.values.size ≤ i.index
  nodup : acquired.Nodup

theorem Acquired.nil : Acquired f r r' [] := ⟨by simp, by simp, .nil⟩

theorem own_ledger (hb : Booked f s.routine) (hv : ¬ Introduced f s.routine v)
    (hknown : v.index < s.routine.values.size) (h : Pass.own point v s = .ok (i, s')) :
    Ledger f s.routine [] s'.routine [i] True ∧ Introduced f s'.routine i ∧
      i = ⟨s.routine.values.size⟩ := by
  obtain ⟨rfl, -, x, hemit⟩ := Pass.own_eq_ok h
  have hledger : Ledger f s.routine [] s'.routine (s.routine.freshValues 1) True :=
    hb.emit [v] [] hemit (by simpa using hv) (by simpa using hknown) (by simp)
  obtain ⟨rfl, c, pre, post, -, hem⟩ := Emit.operation_emitted hemit
  refine ⟨hledger, .own hb.op?_fresh (kind?_of hem.op?_fresh) ?_, rfl⟩
  rw [resultsOf_of hem.op?_fresh]
  simp [mem_freshValues]

/-- An operation that allocates leaves an indicator for each buffer. -/
theorem ownAll_ledger {buffers : List ValueId} (hb : Booked f s.routine) (hfo : f.op? o ≠ none)
    (hbuffers : ∀ v ∈ buffers, v ∈ s.routine.resultsOf o)
    (h : Pass.ownAll point buffers s = .ok (indicators, s')) :
    Ledger f s.routine [] s'.routine indicators True ∧
      Acquired f s.routine s'.routine indicators := by
  induction buffers generalizing s indicators with
  | nil =>
    cases h
    exact ⟨.refl hb [], .nil⟩
  | cons v buffers ih =>
    obtain ⟨i, others, s₁, rfl, hown, hothers⟩ := Pass.ownAll_cons h
    have hv := hbuffers v (by simp)
    obtain ⟨hledger₁, hi, hindex⟩ := own_ledger hb
      (fun hin => hin.not_result hb.linked hfo hv) (hb.linked.result_known hv) hown
    obtain ⟨hledger₂, hacquired⟩ := ih hledger₁.booked'
      (fun w hw => hledger₁.kept.mem_resultsOf (hbuffers w (by simp [hw]))) hothers
    have hknown := hi.known hledger₁.booked'.linked
    refine ⟨hledger₁.andThen (hledger₂.frame_left [i] (by simpa using hknown)),
      fun j hj => ?_, fun j hj => ?_, List.nodup_cons.mpr ⟨fun hmem => ?_, hacquired.nodup⟩⟩
    · rcases List.mem_cons.mp hj with rfl | hj
      · exact hledger₂.kept.introduced hledger₂.booked.linked hi
      · exact hacquired.introduced j hj
    · rcases List.mem_cons.mp hj with rfl | hj
      · rw [hindex]
      · exact Nat.le_trans hledger₁.size_values (hacquired.fresh j hj)
    · exact Nat.not_lt.mpr (hacquired.fresh i hmem) hknown

/-! ## What the regions hand on -/

/-- A region whose block ends in a live terminator, or that has no block and hands on nothing. -/
def Sendable (r : Routine) (out : RegionOutcome) : Prop :=
  (r.blocksOf out.region = [] ∧ out.outcome.acquired = []) ∨
    ∃ b body t, r.blocksOf out.region = [b] ∧ r.opsOf b = body ++ [t] ∧
      r.isTerminator t = true ∧ r.isErased t = false

/-- A region that was gone through can send what it hands on. -/
theorem Ready.sendable (hw : f.WellFormed) (ht : Threaded f s)
    (h : Ready f s.routine out.region out.outcome.acquired) : Sendable s.routine out := by
  rcases h with ⟨hblocks, hnone⟩ | ⟨b, body, t, front, hp⟩
  · exact .inl ⟨(ht.blocksOf _).trans hblocks, hnone⟩
  · have htf := hw.linked.op?_of_listed (o := t) (b := b) (by simp [hp.walked.original])
    refine .inr ⟨b, front, t, (ht.blocksOf _).trans hp.block, hp.walked.list, ?_,
      hp.walked.last.live⟩
    rw [isTerminator, ht.kind? htf]
    exact hp.walked.terminator

/-- More operands do not keep a region from sending. -/
theorem Sendable.appendOperands {vs : List ValueId} (h : Sendable r out)
    (hedit : r.appendOperands t vs = .ok r') : Sendable r' out := by
  obtain ⟨d, hd, hr'⟩ := appendOperands_eq_ok hedit
  rcases h with hnone | ⟨c, front, p, hblock, hlist, hterm, hlive⟩
  · exact .inl (by subst hr'; exact hnone)
  · refine .inr ⟨c, front, p, by subst hr'; exact hblock, by subst hr'; exact hlist, ?_⟩
    by_cases hp : p = t
    · have hentry := op?_appendOperands_self hedit hd
      rw [hp, isTerminator_of hd] at hterm
      rw [hp, isErased_of hd] at hlive
      rw [hp, isTerminator_of hentry, isErased_of hentry]
      exact ⟨hterm, hlive⟩
    · rw [isTerminator, isErased, kind?, op?_appendOperands_of_ne hedit hp]
      exact ⟨hterm, hlive⟩

theorem sendAcquired_ledger (hb : Booked f s.routine) (hsend : Sendable s.routine out)
    (hknown : ∀ i ∈ out.outcome.acquired, i.index < s.routine.values.size)
    (h : Pass.sendAcquired out s = .ok (u, s')) :
    Ledger f s.routine out.outcome.acquired s'.routine [] True ∧
      ∀ out', Sendable s.routine out' → Sendable s'.routine out' := by
  rcases hsend with ⟨hnone, hacquired⟩ | ⟨b, body, t, hblock, hlist, hterm, hlive⟩
  · obtain rfl := sendAcquired_of_empty hnone h
    rw [hacquired]
    exact ⟨.refl hb [], fun _ => id⟩
  · obtain ⟨hedit, -⟩ := sendAcquired_eq_ok hblock hlist hterm h
    exact ⟨hb.appendOperands hedit hterm hlive hknown, fun out' hout => hout.appendOperands hedit⟩

theorem sendAll_ledger (hb : Booked f s.routine) (hsend : ∀ out ∈ outs, Sendable s.routine out)
    (hknown : ∀ out ∈ outs, ∀ i ∈ out.outcome.acquired, i.index < s.routine.values.size)
    (h : outs.forM Pass.sendAcquired s = .ok (u, s')) :
    Ledger f s.routine (outs.flatMap (·.outcome.acquired)) s'.routine [] True := by
  induction outs generalizing s with
  | nil =>
    cases h
    exact .refl hb []
  | cons out rest ih =>
    obtain ⟨_, s₁, hfirst, h⟩ := Pass.bind_eq_ok.mp h
    obtain ⟨hledger, hkept⟩ := sendAcquired_ledger hb (hsend out (by simp))
      (hknown out (by simp)) hfirst
    have hframed := hledger.frame (rest.flatMap (·.outcome.acquired)) fun i hi => by
      obtain ⟨out', hout', hi⟩ := List.mem_flatMap.mp hi
      exact hknown out' (by simp [hout']) i hi
    refine hframed.andThen (ih hledger.booked' (fun out' hout' => ?_) (fun out' hout' i hi => ?_) h)
    · exact hkept out' (hsend out' (by simp [hout']))
    · exact Nat.lt_of_lt_of_le (hknown out' (by simp [hout']) i hi) hledger.size_values

/-! ## What goes in with the operands -/

section Transfer

variable {settings : Settings} {owned released released' : ValueSet}

/-- Of the indicators that go into a construct, it releases those to be consumed, each once. -/
theorem transferOperands_ledger {operands : List ValueId} (hb : Booked f s.routine)
    (h : Pass.transferOperands settings o owned operands released s = .ok ((indicators,
      released'), s')) :
    Ledger f s.routine [] s'.routine [] True ∧
      (∀ v, Introduced f s'.routine v →
        indicators.count v + released.toList.count v = released'.toList.count v) ∧
      (∀ i ∈ released', i ∈ released ∨ i ∈ owned) ∧
      (settings.transfer = false → released' = released) := by
  induction operands generalizing s indicators released with
  | nil =>
    cases h
    exact ⟨.refl hb [], by simp, fun i hi => .inl hi, fun _ => rfl⟩
  | cons v operands ih =>
    obtain ⟨i, others, mid, rfl,
      ⟨hroutine, -, hi, hothers⟩ | ⟨hnull, hothers⟩⟩ := transferOperands_cons h
    · -- an owned indicator joins those to be released, where it was not yet
      obtain ⟨hledger, hbalance, hsub, -⟩ := ih (hroutine ▸ hb) hothers
      rw [hroutine] at hledger
      refine ⟨hledger, fun w hw => ?_, fun j hj => ?_, fun hoff => ?_⟩
      · have hw := hbalance w hw
        rw [ValueSet.count_insert hi.notMem, List.count_append] at hw
        rw [← hw, ← List.singleton_append, List.count_append]
        omega
      · rcases hsub j hj with hj | hj
        · rcases ValueSet.mem_insert.mp hj with rfl | hj
          · exact .inr hi.mem
          · exact .inl hj
        · exact .inr hj
      · rw [hi.allowed] at hoff
        cases hoff
    · -- a null introduces nothing, so no balance counts it
      obtain ⟨rfl, -, y, hemit⟩ := Pass.null_eq_ok hnull
      obtain ⟨hledger₁, hnot⟩ := hb.emit_null hemit
      obtain ⟨hledger₂, hbalance, hsub, hoff⟩ := ih hledger₁.booked' hothers
      refine ⟨hledger₁.andThen hledger₂, fun w hw => ?_, hsub, hoff⟩
      have hne : (⟨s.routine.values.size⟩ : ValueId) ≠ w := by
        rintro rfl
        obtain ⟨-, c, pre, post, -, hem⟩ := Emit.operation_emitted hemit
        exact hnot (hledger₂.kept.introduced_of_known hledger₂.booked.linked
          hledger₂.booked'.linked (by simp [hem.size_values]) hw)
      rw [List.count_cons_of_ne hne, hbalance w hw]

end Transfer

/-! ## A whole construct -/

/-- Regions that release nothing agree as they are. -/
theorem reconcile_of_empty {agreed : Reconciled} (hempty : ∀ out ∈ outs, out.outcome.released = ∅)
    (h : Pass.reconcile site outs s = .ok (agreed, s')) :
    agreed = { released := ∅, regions := outs, displaced := [] } ∧ s = s' := by
  unfold Pass.reconcile at h
  have hall : (outs.all fun g => g.outcome.released.isEmpty) = true :=
    List.all_eq_true.mpr fun out hout => by rw [hempty out hout]; rfl
  rw [if_pos hall] at h
  cases h
  exact ⟨rfl, rfl⟩

/-- What a construct acquires are the last results of the new construct, and they are new. -/
theorem ConstructPass.made {settings : Settings} {owned : ValueSet} {out : Outcome}
    (pass : ConstructPass f settings o d owned site outs s b front rest out s') (hw : f.WellFormed)
    (hcons : d.kind.construct?.isSome = true) :
    pass.x = pass.transferred.routine.freshOp ∧ s'.routine.isConstruct pass.x = true ∧
      out.acquired = s'.routine.indicatorResults pass.x ∧
      Acquired f pass.transferred.routine s'.routine out.acquired := by
  have hb := pass.threaded'.booked hw
  obtain ⟨hx, pre, post, types, hrebuilt⟩ := pass.exists_rebuilt
  have hl' := hb.linked.rebuildConstruct pass.rebuilds
  have hconstruct : s'.routine.isConstruct pass.x = true := by
    rw [isConstruct, pass.routine, hx, kind?_of hrebuilt.op?_fresh]
    show pass.entry.kind.construct?.isSome = true
    rw [pass.entry_kind, hcons]
  have hacquired : out.acquired = s'.routine.indicatorResults pass.x := by
    rw [pass.acquired, pass.routine, hx, hrebuilt.indicatorResults hb.linked, pass.entry_results]
  refine ⟨hx, hconstruct, hacquired, fun i hi => ?_, fun i hi => ?_, ?_⟩
  · exact .result (hx ▸ hb.op?_fresh) hconstruct (hacquired ▸ hi)
  · have hresult := mem_resultsOf_of_indicator (hacquired ▸ hi)
    rw [pass.routine, hx, resultsOf_of hrebuilt.op?_fresh] at hresult
    exact (mem_freshValues.mp hresult).1
  · rw [hacquired, pass.routine]
    exact (hl'.results_nodup pass.x).sublist (List.drop_sublist _ _)

/-- A rebuilt construct consumes the indicators that it takes, and leaves those of its results. -/
theorem ConstructPass.ledger_rebuild {settings : Settings} {owned : ValueSet} {out : Outcome}
    (pass : ConstructPass f settings o d owned site outs s b front rest out s') (hw : f.WellFormed)
    (hd : f.op? o = some d) (hcons : d.kind.construct?.isSome = true) :
    Ledger f pass.transferred.routine pass.indicators s'.routine out.acquired True := by
  have hb := pass.threaded'.booked hw
  obtain ⟨hx, -, hacquired, -⟩ := pass.made hw hcons
  obtain ⟨-, pre, post, types, hrebuilt⟩ := pass.exists_rebuilt
  have hledger := hrebuilt.ledger hb (hb.linked.rebuildConstruct pass.rebuilds) (by simp [hd])
    pass.entry_live (by rw [pass.entry_kind, hcons]) fun i hi => (pass.indicator_tokens i hi).known
  rwa [← hx, ← pass.routine, ← hacquired] at hledger

/-- A construct consumes what its regions hand on and what it takes over, and leaves its results. -/
theorem ConstructPass.ledger {settings : Settings} {owned : ValueSet} {out : Outcome}
    (pass : ConstructPass f settings o d owned site outs s b front rest out s') (hw : f.WellFormed)
    (hd : f.op? o = some d) (hcons : d.kind.construct?.isSome = true) (hb : Booked f s.routine)
    (hempty : ∀ out ∈ outs, out.outcome.released = ∅) (hsend : ∀ out ∈ outs, Sendable s.routine out)
    (hknown : ∀ out ∈ outs, ∀ i ∈ out.outcome.acquired, i.index < s.routine.values.size)
    (howned : ∀ i ∈ owned, i.index < s.routine.values.size) :
    Ledger f s.routine (outs.flatMap (·.outcome.acquired) ++ out.released.toList) s'.routine
        out.acquired True ∧
      (∀ i ∈ out.released, i ∈ owned) ∧ Acquired f s.routine s'.routine out.acquired ∧
      (settings.transfer = false → out.released = ∅) := by
  obtain ⟨hagreed, hsame⟩ := reconcile_of_empty hempty pass.reconciles
  have hsends := pass.sends
  have hdrops := pass.drops
  have htransfers := pass.transfers
  rw [hagreed, ← hsame] at hsends
  rw [hagreed] at hdrops htransfers
  obtain ⟨-, hinside⟩ := Pass.pure_eq_ok.mp hdrops
  -- the regions
  have hregions := sendAll_ledger hb hsend hknown hsends
  rw [hinside] at hregions
  -- the operands
  obtain ⟨htransfer, hbalance, hsub, hoff⟩ := transferOperands_ledger hregions.booked' htransfers
  have hreleased : ∀ i ∈ out.released, i ∈ owned := fun i hi =>
    (hsub i hi).resolve_left (by simp)
  have hknownReleased : ∀ i ∈ out.released, i.index < s.routine.values.size := fun i hi =>
    howned i (hreleased i hi)
  have hoperands : Ledger f pass.inside.routine out.released.toList pass.transferred.routine
      pass.indicators True := by
    refine (htransfer.frame out.released.toList fun i hi => ?_).congr (fun v _ => rfl)
      fun v hv => ?_
    · exact Nat.lt_of_lt_of_le (hknownReleased i hi) hregions.size_values
    · have := hbalance v hv
      simpa using this
  -- the new construct
  obtain ⟨-, -, -, hnew⟩ := pass.made hw hcons
  have hconstruct := pass.ledger_rebuild hw hd hcons
  -- what is taken over passes by the regions
  have hall := ((hregions.frame _ hknownReleased).andThen hoperands).andThen hconstruct
  refine ⟨hall, hreleased, ⟨hnew.introduced, fun i hi => ?_, hnew.nodup⟩, hoff⟩
  exact Nat.le_trans (hregions.andThen htransfer).size_values (hnew.fresh i hi)

end BufferOwnership
