import BufferOwnership.Proofs.Advance
import BufferOwnership.Proofs.Certify

/-!
# The order of emission

The place right after an operation is looked up once, and then many operations are created there.
It is either before the next operation or at the end of the block, and both stay where they are
while the block grows: a point that splits a list in two splits it right behind what was put there
last. So what is created comes in the order of its creation.
-/

namespace BufferOwnership

open Routine

/-- What is asked for when an operation is created, apart from its place. -/
structure Draft where
  kind : OpKind
  operands : List ValueId
  resultTypes : List Ty
  regionCount : Nat

/-- Creates operations one after another, all at the same point. -/
def Emit.operations (point : InsertPoint) : List Draft → Edit (List OpId)
  | [] => return []
  | draft :: drafts => do
    let o ← operation point draft.kind draft.operands draft.resultTypes draft.regionCount
    return o :: (← operations point drafts)

/-- The operation stands in the block and is what the draft asks for. -/
def Draft.MadeIn (draft : Draft) (r : Routine) (b : BlockId) (o : OpId) : Prop :=
  ∃ d, r.op? o = some d ∧ d.kind = draft.kind ∧ d.operands = draft.operands ∧
    d.results.length = draft.resultTypes.length ∧ d.regions.length = draft.regionCount ∧
    d.parent = some b

variable {r : Routine} {point : InsertPoint} {o : OpId} {b : BlockId} {pre post : List OpId}

/-- The place right after an operation splits the list of its block there. -/
theorem Routine.Nested.pointAfter_splits (hn : r.Nested) (hlist : r.opsOf b = pre ++ o :: post) :
    ∃ point, r.pointAfter o = .ok point ∧ r.Splits b (pre ++ [o]) post point := by
  cases post with
  | nil =>
    obtain ⟨d, hd, hparent⟩ := exists_op?_of_parent? ((hn.op_listed o b).mp (by simp [hlist]))
    refine ⟨.atEnd b, ?_, rfl, rfl⟩
    rw [Routine.pointAfter, bind_of_ok (hn.nextOp? hlist)]
    simp only [List.head?_nil, bind_of_ok (op_of hd), hparent]
    rfl
  | cons next post =>
    have hlist' : r.opsOf b = (pre ++ [o]) ++ next :: post := by simp [hlist]
    exact ⟨.before next, hn.pointAfter hlist, (hn.op_listed next b).mp (by simp [hlist]),
      (hn.listed_once hlist').1, post, rfl⟩

/-- What is created at a point that splits a list is put there in order. All else stays. -/
theorem Emit.operations_of_splits (hB : r.block? b = some B) (hops : B.ops = pre ++ post)
    (h : r.Splits b pre post point) (drafts : List Draft) :
    ∃ created r', Emit.operations point drafts r = .ok (created, r') ∧
      (∀ c, r'.block? c =
        if c = b then some { B with ops := pre ++ created ++ post } else r.block? c) ∧
      (∀ p d, r.op? p = some d → r'.op? p = some d) ∧
      List.Forall₂ (fun draft x => r.op? x = none ∧ draft.MadeIn r' b x) drafts created := by
  induction drafts generalizing r B pre with
  | nil =>
    refine ⟨[], r, rfl, fun c => ?_, fun _ _ hd => hd, .nil⟩
    split
    · rename_i hc
      rw [hc, hB, List.append_nil, ← hops]
    · rfl
  | cons draft drafts ih =>
    obtain ⟨mid, hemit, hop, hblock⟩ := emit_of_splits hB hops h draft.kind draft.operands
      draft.resultTypes draft.regionCount
    have hold : ∀ p d, r.op? p = some d → mid.op? p = some d := fun p d hd => by
      rw [hop, if_neg (ne_freshOp hd), hd]
    -- the point now splits the list right behind the new operation
    have hsplits : mid.Splits b (pre ++ [r.freshOp]) post point := by
      cases point with
      | before anchor =>
        obtain ⟨hparent, hpre, hpost⟩ := h
        obtain ⟨d, hd, hdparent⟩ := exists_op?_of_parent? hparent
        exact ⟨(parent?_of (hold anchor d hd)).trans hdparent, by simp [hpre, ne_freshOp hd], hpost⟩
      | atEnd c => exact h
    obtain ⟨created, r', hrest, hblock', hkept, hmade⟩ :=
      ih ((hblock b).trans (if_pos rfl)) (by simp) hsplits
    refine ⟨r.freshOp :: created, r', ?_, fun c => ?_, fun p d hd => hkept p d (hold p d hd), ?_⟩
    · exact Edit.bind_eq_ok.mpr ⟨_, mid, hemit, Edit.bind_eq_ok.mpr ⟨_, r', hrest, rfl⟩⟩
    · rw [hblock', hblock]
      split
      · simp
      · rfl
    · refine .cons ⟨op?_freshOp r, _, hkept _ _ ((hop _).trans (if_pos rfl)), ?_⟩ ?_
      · simp [freshRegions]
      · refine hmade.imp fun _ x hx => ⟨?_, hx.2⟩
        cases hx' : r.op? x with
        | none => rfl
        | some d => cases (hold x d hx').symm.trans hx.1

/-- Operations that are created one after another at the place right after an operation, as it was
before the first of them, are all put into its block, right behind it and in the order of their
creation. No other block changes. -/
theorem operations_pointAfter_ordered (hl : r.Linked) (hlinked : r.parent? o = some b)
    (drafts : List Draft) :
    ∃ point pre post created r', r.pointAfter o = .ok point ∧ r.opsOf b = pre ++ o :: post ∧
      Emit.operations point drafts r = .ok (created, r') ∧
      r'.opsOf b = pre ++ o :: (created ++ post) ∧ (∀ c, c ≠ b → r'.block? c = r.block? c) ∧
      List.Forall₂ (fun draft x => r.op? x = none ∧ draft.MadeIn r' b x) drafts created := by
  have hmem := (hl.op_listed o b).mpr hlinked
  obtain ⟨pre, post, hlist⟩ := List.append_of_mem hmem
  obtain ⟨B, hB, -⟩ := exists_block?_of_mem_opsOf hmem
  obtain ⟨point, hpoint, hsplits⟩ := hl.pointAfter_splits hlist
  have hops : B.ops = (pre ++ [o]) ++ post := by simp [← opsOf_of hB, hlist]
  obtain ⟨created, r', hemit, hblock, -, hmade⟩ := Emit.operations_of_splits hB hops hsplits drafts
  refine ⟨point, pre, post, created, r', hpoint, hlist, hemit, ?_, fun c hc => ?_, hmade⟩
  · simp [opsOf, hblock]
  · rw [hblock, if_neg hc]

/-- An indicator for a new buffer, a conditional that reads it, and one with unknown values. -/
def mixedDrafts : List Draft :=
  [⟨.own, [⟨2⟩], [.ownership], 0⟩, ⟨.conditional, [⟨7⟩], [], 2⟩, ⟨.generic "mix" [], [⟨99⟩], [], 0⟩]

theorem mixedDrafts_ordered : ∃ point created r', renewalRoutine.pointAfter ⟨1⟩ = .ok point ∧
    Emit.operations point mixedDrafts renewalRoutine = .ok (created, r') ∧ created.length = 3 ∧
    ∀ c, c ≠ ⟨0⟩ → r'.block? c = renewalRoutine.block? c := by
  obtain ⟨point, pre, post, created, r', hpoint, -, hemit, -, hothers, hmade⟩ :=
    operations_pointAfter_ordered (o := ⟨1⟩) (b := ⟨0⟩) renewalRoutine_wellFormed.linked
      (by decide +kernel) mixedDrafts
  exact ⟨point, created, r', hpoint, hemit, hmade.length_eq.symm, hothers⟩

end BufferOwnership
