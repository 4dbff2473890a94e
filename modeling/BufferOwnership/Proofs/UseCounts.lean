import BufferOwnership.Proofs.Edits
import Mathlib.Algebra.Order.BigOperators.Group.Finset

/-!
# How often a value is used

The uses of a value are spread over the table of operations, so their number is a sum over that
table: erased operations count for nothing, and any other for the operands that are the value. An
edit changes the summands of at most two operations, and that is all there is to say about what it
does to the number.
-/

namespace BufferOwnership

/-- The number of operand slots that hold a value is how often it is an operand. -/
theorem Op.length_operandSlots (d : Op) (v : ValueId) :
    (d.operandSlots v).length = d.operands.count v := by
  have hslots : ∀ (l : List ValueId) (k : Nat),
      ((l.zipIdx k).filterMap fun slot => if slot.1 = v then some slot.2 else none).length =
        l.count v := by
    intro l
    induction l with
    | nil => exact fun _ => rfl
    | cons w l ih =>
      intro k
      by_cases hw : w = v <;> simp [hw, ih (k + 1)]
  exact hslots d.operands 0

namespace Routine

variable {r r' : Routine} {v : ValueId} {o : OpId} {d : Op}

/-- How many operands of live operations a value is. -/
def useCount (r : Routine) (v : ValueId) : Nat := (r.uses v).length

/-- How many operands of one operation a value is, if the operation is live. -/
def usesAt (r : Routine) (v : ValueId) (o : OpId) : Nat :=
  if r.isErased o then 0 else (r.operandsOf o).count v

theorem usesAt_of (hd : r.op? o = some d) :
    r.usesAt v o = if d.erased then 0 else d.operands.count v := by
  rw [usesAt, isErased_of hd, operandsOf_of hd]

theorem usesAt_congr (h : r'.op? o = r.op? o) : r'.usesAt v o = r.usesAt v o := by
  unfold usesAt isErased operandsOf
  rw [h]

theorem useCount_eq_sum (r : Routine) (v : ValueId) :
    r.useCount v = ∑ k ∈ Finset.range r.ops.size, r.usesAt v ⟨k⟩ := by
  -- each entry of the table contributes by itself, whatever its place
  have hlist : ∀ (l : List Op) (k : Nat),
      ((l.zipIdx k).flatMap fun entry => if entry.1.erased then [] else
        (entry.1.operandSlots v).map fun slot => ((⟨entry.2⟩ : OpId), slot)).length =
      ∑ j ∈ Finset.range l.length, (l[j]?).elim 0 fun d =>
        if d.erased then 0 else d.operands.count v := by
    intro l
    induction l with
    | nil => exact fun _ => rfl
    | cons d l ih =>
      intro k
      rw [List.zipIdx_cons, List.flatMap_cons, List.length_append, ih (k + 1), List.length_cons,
        Finset.sum_range_succ', Nat.add_comm]
      congr 1
      by_cases hd : d.erased = true
      · simp [hd]
      · simp [hd, d.length_operandSlots v]
  rw [useCount, uses, hlist, Array.length_toList]
  refine Finset.sum_congr rfl fun k _ => ?_
  rw [Array.getElem?_toList, usesAt, isErased, operandsOf, op?]
  cases r.ops[k]? with
  | none => rfl
  | some d => rfl

/-- A value that is unknown is not used. -/
theorem useCount_eq_zero (hknown : ∀ o, v ∉ r.operandsOf o) : r.useCount v = 0 := by
  rw [useCount_eq_sum]
  refine Finset.sum_eq_zero fun k _ => ?_
  rw [usesAt, List.count_eq_zero.mpr (hknown ⟨k⟩), ite_self]

theorem ne_freshOp_of_lt {k : Nat} (hk : k < r.ops.size) : (⟨k⟩ : OpId) ≠ r.freshOp := by
  intro he
  rw [show k = r.ops.size from congrArg OpId.index he] at hk
  exact Nat.lt_irrefl _ hk

/-- Of the operations that there were, only one changes. -/
theorem sum_usesAt_change (r' : Routine) (v : ValueId) (ho : r.op? o = some d)
    (hother : ∀ p, p ≠ o → p ≠ r.freshOp → r'.usesAt v p = r.usesAt v p) :
    (∑ k ∈ Finset.range r.ops.size, r'.usesAt v ⟨k⟩) + r.usesAt v o =
      r.useCount v + r'.usesAt v o := by
  have hmem : o.index ∈ Finset.range r.ops.size := Finset.mem_range.mpr (lt_of_op? ho)
  have hrest : ∑ k ∈ (Finset.range r.ops.size).erase o.index, r'.usesAt v ⟨k⟩ =
      ∑ k ∈ (Finset.range r.ops.size).erase o.index, r.usesAt v ⟨k⟩ := by
    refine Finset.sum_congr rfl fun k hk => ?_
    obtain ⟨hne, hk⟩ := Finset.mem_erase.mp hk
    apply hother
    · rintro rfl
      exact hne rfl
    · exact ne_freshOp_of_lt (Finset.mem_range.mp hk)
  rw [useCount_eq_sum, ← Finset.add_sum_erase _ _ hmem, hrest,
    ← Finset.add_sum_erase _ (fun k => r.usesAt v ⟨k⟩) hmem]
  show r'.usesAt v o + _ + r.usesAt v o = r.usesAt v o + _ + r'.usesAt v o
  omega

/-- An operation is new, and nothing else changes. -/
theorem useCount_of_addition (hsize : r'.ops.size = r.ops.size + 1)
    (hother : ∀ p, p ≠ r.freshOp → r'.usesAt v p = r.usesAt v p) :
    r'.useCount v = r.useCount v + r'.usesAt v r.freshOp := by
  rw [useCount_eq_sum, useCount_eq_sum, hsize, Finset.sum_range_succ, freshOp]
  congr 1
  refine Finset.sum_congr rfl fun k hk => hother ⟨k⟩ ?_
  exact ne_freshOp_of_lt (Finset.mem_range.mp hk)

end Routine

open Routine

section Edits

variable {r r' : Routine} {v : ValueId} {b : BlockId} {o : OpId} {d : Op}
variable {pre post : List OpId} {types : List Ty}

theorem Emitted.useCount {kind : OpKind} {operands : List ValueId}
    (h : Emitted r r' b pre post kind operands types) (v : ValueId) :
    r'.useCount v = r.useCount v + operands.count v := by
  rw [useCount_of_addition h.size_ops fun p hp => ?_, usesAt_of h.op?_fresh]
  · simp
  · exact usesAt_congr (h.op?_of_ne hp)

theorem useCount_addBlockArg {ty : Ty} {arg : ValueId} (h : r.addBlockArg b ty = .ok (arg, r'))
    (v : ValueId) : r'.useCount v = r.useCount v := by
  obtain ⟨B, -, -, rfl⟩ := addBlockArg_eq_ok h
  rfl

theorem useCount_appendOperands {t : OpId} {vs : List ValueId}
    (h : r.appendOperands t vs = .ok r') (hlive : r.isErased t = false) (v : ValueId) :
    r'.useCount v = r.useCount v + vs.count v := by
  obtain ⟨d, hd, hr'⟩ := appendOperands_eq_ok h
  have hsize : r'.ops.size = r.ops.size := by simp [hr', modifyOp]
  have hcount := sum_usesAt_change r' v hd fun p hp _ =>
    usesAt_congr (op?_appendOperands_of_ne h hp)
  rw [← hsize, ← useCount_eq_sum] at hcount
  rw [isErased_of hd] at hlive
  rw [usesAt_of hd, usesAt_of (op?_appendOperands_self h hd)] at hcount
  simp only [hlive, Bool.false_eq_true, if_false, List.count_append] at hcount
  omega

/-- Erasing an operation without regions takes uses away. -/
theorem useCount_eraseOp_le (hd : r.op? o = some d) (hleaf : d.regions = [])
    (h : r.eraseOp o = .ok r') (v : ValueId) : r'.useCount v ≤ r.useCount v := by
  obtain ⟨hop, -, -, -, -, hsize, -⟩ := eraseOp_leaf_entries hd hleaf h
  rw [useCount_eq_sum, useCount_eq_sum, hsize]
  apply Finset.sum_le_sum
  intro k _
  by_cases hk : ⟨k⟩ = o
  · have herased : r'.op? ⟨k⟩ = some { d with parent := none, erased := true } := by
      rw [hop, if_pos hk]
    rw [usesAt_of herased]
    exact Nat.zero_le _
  · exact (usesAt_congr (by rw [hop, if_neg hk])).le

namespace Rebuilt

variable {indicators : List ValueId} (h : Rebuilt r r' o d b pre post indicators types)
include h

omit h in
/-- A value that neither gives way nor takes the place of another keeps its occurrences. -/
theorem count_map_renewed (hold : v ∉ d.results)
    (hnew : v ∉ d.results.map (r.renewed d.results types)) (l : List ValueId) :
    (l.map (r.renewed d.results types)).count v = l.count v := by
  rw [List.count_eq_countP, List.countP_map, List.count_eq_countP]
  refine List.countP_congr fun w _ => ?_
  by_cases hw : w ∈ d.results
  · have hne : r.renewed d.results types w ≠ v := fun he =>
      hnew (List.mem_map.mpr ⟨w, hw, he⟩)
    have hne' : w ≠ v := fun he => hold (he ▸ hw)
    simp [hne, hne']
  · simp [renewed_of_notMem hw]

/-- Rebuilding a construct adds uses of the indicators that it gets, and moves other uses. -/
theorem useCount (hlive : d.erased = false) (hold : v ∉ d.results)
    (hnew : v ∉ d.results.map (r.renewed d.results types)) :
    r'.useCount v = r.useCount v + indicators.count v := by
  have hcount := sum_usesAt_change r' v h.old fun p hp hfresh => by
    cases he : r.op? p with
    | none =>
      have he' : r'.op? p = none := by rw [h.op, if_neg hfresh, if_neg hp, he, Option.map_none]
      exact usesAt_congr (he'.trans he.symm)
    | some e =>
      rw [usesAt_of he, usesAt_of (h.op?_of_ne hp he)]
      by_cases herased : e.erased = true
      · simp [Op.renew, herased]
      · simp [Op.renew, herased, count_map_renewed hold hnew]
  -- the old operation no longer counts, the new one has its operands and the indicators
  have hfresh : r'.usesAt v ⟨r.ops.size⟩ = d.operands.count v + indicators.count v := by
    rw [show (⟨r.ops.size⟩ : OpId) = r.freshOp from rfl, usesAt_of h.op?_fresh]
    simp only [Bool.false_eq_true, if_false, List.map_append, List.count_append,
      count_map_renewed hold hnew]
  rw [usesAt_of h.old, usesAt_of h.op?_old] at hcount
  simp only [hlive, Bool.false_eq_true, if_false, if_true] at hcount
  rw [useCount_eq_sum r', h.size_ops, Finset.sum_range_succ, hfresh]
  omega

end Rebuilt

end Edits

end BufferOwnership
