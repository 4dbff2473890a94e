import BufferOwnership.Proofs.Finished
import BufferOwnership.Proofs.ReleasePlaces
import BufferOwnership.Proofs.Visits

/-!
# What the tally says

The numbers of the tally can be read off the routine before and after. Owns, retains and nulls are
so many as the routine has more of them, not counting what is erased. There is an own for each
buffer that a visited operation allocates. Each buffer operand of a visited construct has its
indicator behind the operands that were there before: a transfer is one that was there already, and
all the others are nulls.
-/

namespace BufferOwnership

open Routine

namespace Routine

/-- What an operation allocates, if it is one with effects. -/
def allocations (f : Routine) (o : OpId) : List ValueId :=
  match (f.op? o).map Op.classify with
  | some (.effects allocated _) => allocated
  | _ => []

/-- The buffer operands of a construct. -/
def constructBuffers (f : Routine) (o : OpId) : List ValueId :=
  if f.isConstruct o then (f.operandsOf o).filter f.holdsBuffer else []

/-- The operands that a construct has got under its new name. -/
def appended (f g : Routine) (σ : OpId → OpId) (o : OpId) : List ValueId :=
  if f.isConstruct o then (g.operandsOf (σ o)).drop (f.operandsOf o).length else []

/-- Is a value the result of a null that was not there at first? -/
def isNewNull (f g : Routine) (v : ValueId) : Bool :=
  match g.origin? v with
  | some (.result x _) => decide (f.op? x = none ∧ g.kind? x = some .null)
  | _ => false

end Routine

variable {f g : Routine} {F : Footprint} {s s' final : Session} {b : BlockId} {o : OpId}
variable {v i : ValueId} {d : Op} {settings : Settings} {owned : ValueSet} {δ : Delta}

theorem Routine.isNewNull_iff (hl : g.Linked) : f.isNewNull g v = true ↔
    ∃ x, f.op? x = none ∧ g.kind? x = some .null ∧ v ∈ g.resultsOf x := by
  have hresult : ∀ {x k}, g.origin? v = some (.result x k) → v ∈ g.resultsOf x := fun h =>
    List.mem_iff_getElem?.mpr ⟨_, (hl.result_listed v _ _).mpr h⟩
  constructor
  · intro h
    unfold isNewNull at h
    split at h
    · rename_i x k horigin
      obtain ⟨hf, hkind⟩ := of_decide_eq_true h
      exact ⟨x, hf, hkind, hresult horigin⟩
    · cases h
  · rintro ⟨x, hf, hkind, hv⟩
    obtain ⟨k, hk⟩ := List.mem_iff_getElem?.mp hv
    simp [isNewNull, (hl.result_listed v x k).mp hk, hf, hkind]

/-! ## What goes into a construct -/

theorem null_made {point : InsertPoint} (h : Pass.null point s = .ok (i, s')) :
    Kept s.routine s'.routine ∧ s.routine.values.size ≤ i.index ∧
      ∃ x, s.routine.op? x = none ∧ s'.routine.kind? x = some .null ∧
        i ∈ s'.routine.resultsOf x := by
  obtain ⟨rfl, -, x, hemit⟩ := Pass.null_eq_ok h
  obtain ⟨rfl, c, pre, post, -, hem⟩ := Emit.operation_emitted hemit
  refine ⟨hem.kept, Nat.le_refl _, _, op?_freshOp _, kind?_of hem.op?_fresh, ?_⟩
  rw [resultsOf_of hem.op?_fresh]
  simp [mem_freshValues]

/-- An indicator that goes into a construct is owned, or the result of a null made for it. -/
theorem transferOperands_made {operands indicators : List ValueId} {released released' : ValueSet}
    (h : Pass.transferOperands settings o owned operands released s =
      .ok ((indicators, released'), s')) :
    Kept s.routine s'.routine ∧ ∀ i ∈ indicators, i ∈ owned ∨
      (s.routine.values.size ≤ i.index ∧ ∃ x, s.routine.op? x = none ∧
        s'.routine.kind? x = some .null ∧ i ∈ s'.routine.resultsOf x) := by
  induction operands generalizing s indicators released with
  | nil =>
    cases h
    exact ⟨.refl _, by simp⟩
  | cons v operands ih =>
    obtain ⟨i, others, mid, rfl, ⟨hroutine, -, hi, hothers⟩ | ⟨hnull, hothers⟩⟩ :=
      transferOperands_cons h
    · obtain ⟨hkept, hmade⟩ := ih hothers
      rw [hroutine] at hkept hmade
      refine ⟨hkept, fun j hj => ?_⟩
      rcases List.mem_cons.mp hj with rfl | hj
      · exact .inl hi.mem
      · exact hmade j hj
    · obtain ⟨hkept₁, hnew, x, hx, hkind, hi⟩ := null_made hnull
      obtain ⟨hkept₂, hmade⟩ := ih hothers
      refine ⟨hkept₁.trans hkept₂, fun j hj => ?_⟩
      rcases List.mem_cons.mp hj with rfl | hj
      · exact .inr ⟨hnew, x, hx, hkept₂.kind? hkind, hkept₂.mem_resultsOf hi⟩
      · refine (hmade j hj).imp_right fun ⟨hnew, y, hy, hkind, hj⟩ => ?_
        refine ⟨Nat.le_trans hkept₁.size_values hnew, y, ?_, hkind, hj⟩
        -- what is new after the null was not there before it either
        by_contra hne
        exact hkept₁.op?_ne_none hne hy

section Construct

variable {site : ConstructSite} {outs : List RegionOutcome} {front rest : List OpId} {out : Outcome}

/-- What goes into a construct is behind its old operands in the end. -/
theorem ConstructPass.appended_eq
    (pass : ConstructPass f settings o d owned site outs s b front rest out s')
    (hw : f.WellFormed) (ht : Threaded f s) (hvisited : f.VisitedConstruct o)
    (hd : f.op? o = some d) (hcleared : Cleared f s.routine o) (hrun : Run f F s' final)
    (hδ : Embedding f final.routine δ) :
    f.appended final.routine δ.op o = pass.indicators := by
  obtain ⟨hx, pre, post, types, hrebuilt⟩ := pass.exists_rebuilt
  obtain ⟨e, he, hlast, -⟩ := pass.entry_last hw ht hvisited hd hcleared hrun
  have hnew : s'.routine.operandsOf pass.x = (pass.entry.operands ++ pass.indicators).map
      (pass.transferred.routine.renewed pass.entry.results types) := by
    rw [pass.routine, hx, operandsOf_of hrebuilt.op?_fresh]
  have hcount : (f.operandsOf o).length = pass.entry.operands.length := by
    rw [← pass.intact.operands, operandsOf_of pass.entry_eq]
  rw [appended, if_pos hvisited.2, pass.op_eq hw ht hvisited hrun hδ, operandsOf_of hlast,
    ← operandsOf_of he, hnew, List.map_append, List.drop_left' (by rw [List.length_map, hcount]),
    pass.map_renewed hw hd]

end Construct

/-! ## What each operation adds -/

section Shares

variable {m : IndicatorKind} {taken n : Nat}

theorem Routine.allocations_of (hd : f.op? o = some d)
    (hclass : d.classify = .effects d.allocated d.freed) : f.allocations o = d.allocated := by
  simp [allocations, hd, hclass]

theorem Routine.allocations_eq_nil (hd : f.op? o = some d)
    (hclass : ∀ allocated freed, d.classify ≠ .effects allocated freed) : f.allocations o = [] := by
  cases h : d.classify with
  | effects allocated freed => exact absurd h (hclass allocated freed)
  | _ => simp [allocations, hd, h]

theorem Counted.owns_eq (hm : m ≠ .own) (h : Counted (List.replicate n m) taken s s') :
    s'.tally.owns = s.tally.owns := by
  have howns := h.inserted .own
  simpa [Tally.inserted, List.count_replicate, hm] using howns

theorem Counted.nulls_eq (h : Counted (List.replicate n m) taken s s') :
    s'.tally.nulls = s.tally.nulls + if m = .null then n else 0 := by
  have hnulls := h.inserted .null
  simpa [Tally.inserted, List.count_replicate] using hnulls

theorem owns_accrue : Accrual f settings final (·.owns) fun o => (f.allocations o).length where
  retains _ _ := rfl
  idle hd _ hclass := by rw [allocations_eq_nil hd hclass]; rfl
  owns hd hclass h := by
    have howns := h.inserted .own
    rw [List.count_replicate_self] at howns
    rw [allocations_of hd hclass]
    exact howns
  finishes _ hd hcons _ _ pass := by
    obtain ⟨nulls, taken, h, -⟩ := Pass.transferOperands_counted pass.transfers
    rw [allocations_eq_nil hd fun _ _ hclass => ?_, h.owns_eq (by simp)]
    · rfl
    · simp [isConstruct_of_classify hd (by simp [hclass])] at hcons

theorem operands_accrue : Accrual f settings final (fun t => t.nulls + t.transfers) fun o =>
    (f.constructBuffers o).length where
  retains _ _ := rfl
  idle hd hkind _ := by simp [constructBuffers, isConstruct_of hd, hkind]
  owns hd hclass h := by
    have hnulls := h.nulls_eq
    simp_all [constructBuffers, isConstruct_of_classify hd (by simp [hclass]), h.transfers]
  finishes _ hd hcons _ _ pass := by
    obtain ⟨nulls, taken, h, hlen, -⟩ := Pass.transferOperands_counted pass.transfers
    have hnulls := h.nulls_eq
    have htransfers := h.transfers
    have hcount := pass.operand_count
    rw [constructBuffers, if_pos hcons, operandsOf_of hd, ← List.countP_eq_length_filter]
    simp only [if_pos] at hnulls
    rw [bufferCount] at hcount
    omega

theorem transfers_accrue_off (hoff : settings.transfer = false) :
    Accrual f settings final (·.transfers) fun _ => 0 where
  retains _ _ := rfl
  idle _ _ _ := rfl
  owns _ _ h := h.transfers
  finishes _ _ _ _ _ pass := by
    obtain ⟨nulls, taken, h, -, hnone, -⟩ := Pass.transferOperands_counted pass.transfers
    rw [h.transfers, hnone hoff]

/-- A transfer is an indicator that goes into a construct and is not the result of a null. -/
theorem transfers_accrue (hw : f.WellFormed) (hδ : Embedding f final.routine δ)
    (hl : final.routine.Linked) : Accrual f settings final (·.transfers) fun o =>
      (f.appended final.routine δ.op o).countP fun v => !f.isNewNull final.routine v where
  retains _ _ := rfl
  idle hd hkind _ := by simp [appended, isConstruct_of hd, hkind]
  owns hd hclass h := by
    simp [appended, isConstruct_of_classify hd (by simp [hclass]), h.transfers]
  finishes {c fuel d site regions mid b front rest} h hd hcons howned hrun pass := by
    have ht := h.atOp.threaded.run hw hrun
    have hlater : Run f .all c.after final := h.later.anywhere
    have hlast : Run f .all pass.transferred final :=
      (pass.run_rebuilds.anywhere.trans (pass.run_aliases _)).trans hlater
    have hkept : Kept c.before.routine pass.inside.routine :=
      hrun.keeps.trans pass.run_inside.keeps
    obtain ⟨-, hmade⟩ := transferOperands_made pass.transfers
    obtain ⟨nulls, taken, hcounted, -, -, htaken⟩ := Pass.transferOperands_counted pass.transfers
    rw [hcounted.transfers, pass.appended_eq hw ht ⟨h.atOp.visited, hcons⟩ hd
      (h.cleared.keep hrun.keeps) hlater hδ, htaken c.before.routine.values.size
      (fun i hi => (h.atOp.owned i hi).known) hkept.size_values]
    -- an indicator is owned or made for the construct, and its age tells which
    congr 1
    refine List.countP_congr fun i hi => ?_
    rw [decide_eq_true_iff, Bool.not_eq_true', ← Bool.not_eq_true, isNewNull_iff hl]
    constructor
    · rintro hlt ⟨x, -, hkind, hres⟩
      rcases hmade i hi with hi | ⟨hnew, -⟩
      · exact ((howned i hi).run (h.ahead hw) h.atOp.threaded hw).not_null hl hres hkind
      · exact absurd (Nat.le_trans hkept.size_values hnew) (Nat.not_le.mpr hlt)
    · intro hnot
      rcases hmade i hi with hi | ⟨-, x, hx, hkind, hres⟩
      · exact (h.atOp.owned i hi).known
      · refine absurd ⟨x, ?_, hlast.keeps.kind? hkind, hlast.keeps.mem_resultsOf hres⟩ hnot
        by_contra hf
        exact pass.threaded.op? hf hx

end Shares

/-! ## The whole tally -/

theorem threadOwnership_tally {report : Report} {out : Outcome}
    (h : f.threadOwnership settings = .ok (report, g))
    (hroot : f.threadFromRoot settings = .ok (out, s)) : report.tally = s.tally := by
  obtain ⟨⟨out', s''⟩, hroot', h⟩ := bind_eq_ok.mp h
  cases hroot.symm.trans hroot'
  obtain ⟨_, -, h⟩ := bind_eq_ok.mp h
  cases h
  rfl

/-- The tally counts exactly what was inserted. Owns, retains and nulls are the live ones that the
routine has more than before; owns are the allocations of what is visited; transfers are those
operands of the new constructs that no inserted null gives; and with the nulls they make up the
buffer operands of the constructs that are visited. -/
theorem threadOwnership_tally_exact (hw : f.WellFormed) (settings : Settings) {report : Report}
    (h : f.threadOwnership settings = .ok (report, g)) :
    (f.visits.Nodup ∧ ∀ o, o ∈ f.visits ↔ f.Visited o) ∧
    (∀ m, g.liveCount m = f.liveCount m + report.tally.inserted m) ∧
    report.tally.owns = (f.visits.map fun o => (f.allocations o).length).sum ∧
    (∃ σ τ, Enriches f g σ τ ∧ report.tally.transfers =
      (f.visits.map fun o => (f.appended g σ o).countP fun v => !f.isNewNull g v).sum) ∧
    report.tally.nulls + report.tally.transfers =
      (f.visits.map fun o => (f.constructBuffers o).length).sum ∧
    (settings.transfer = false →
      report.tally.nulls = (f.visits.map fun o => (f.constructBuffers o).length).sum) := by
  obtain ⟨out, s, hroot, rfl, -⟩ := threadOwnership_eq_ok h
  rw [threadOwnership_tally h hroot]
  obtain ⟨ht, hdone, -⟩ := threadFromRoot_spec hw hroot
  obtain ⟨δ, hδ⟩ := ht.embedded
  have hoperands : s.tally.nulls + s.tally.transfers =
      (f.visits.map fun o => (f.constructBuffers o).length).sum := by
    simpa using threadFromRoot_accrues operands_accrue hw hroot
  refine ⟨⟨nodup_visits hw, fun o => mem_visits hw⟩,
    ((threadFromRoot_stages hw hroot).tallied hw (.start f)).liveCount ht, ?_,
    ⟨δ.op, δ.value, hδ.enriches hw hdone, ?_⟩, hoperands, fun hoff => ?_⟩
  · simpa using threadFromRoot_accrues owns_accrue hw hroot
  · simpa using threadFromRoot_accrues (transfers_accrue hw hδ ht.wellFormed.linked) hw hroot
  · have hnone : s.tally.transfers = 0 := by
      simpa using threadFromRoot_accrues (transfers_accrue_off hoff) hw hroot
    rwa [hnone] at hoperands

theorem threadOwnership_tally_exact_merged :
    mergedRoutine.WellFormed ∧ ∃ report g, mergedRoutine.threadOwnership {} = .ok (report, g) ∧
      report.tally = { owns := 3, retains := 4, nulls := 1, transfers := 1 } ∧
      (∀ m, g.liveCount m = mergedRoutine.liveCount m + report.tally.inserted m) ∧
      (mergedRoutine.visits.map fun o => (mergedRoutine.allocations o).length).sum = 3 ∧
      (∃ σ τ, Enriches mergedRoutine g σ τ ∧ 1 = (mergedRoutine.visits.map fun o =>
        (mergedRoutine.appended g σ o).countP fun v => !mergedRoutine.isNewNull g v).sum) ∧
      (mergedRoutine.visits.map fun o => (mergedRoutine.constructBuffers o).length).sum = 2 := by
  have hw : mergedRoutine.WellFormed := wellFormed_of_check (by decide +kernel)
  obtain ⟨⟨report, g⟩, h, htally⟩ :=
    exists_of_check (x := mergedRoutine.threadOwnership {})
      (P := fun a => a.1.tally = { owns := 3, retains := 4, nulls := 1, transfers := 1 })
      (by decide +kernel)
  obtain ⟨-, hlive, howns, ⟨σ, τ, henriches, htransfers⟩, hoperands, -⟩ :=
    threadOwnership_tally_exact hw {} h
  rw [htally] at howns htransfers hoperands
  exact ⟨hw, report, g, h, htally, hlive, howns.symm, ⟨σ, τ, henriches, htransfers⟩,
    hoperands.symm⟩

end BufferOwnership
