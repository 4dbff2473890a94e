import BufferOwnership.Proofs.EditRuns

/-!
# What erasing an operation retires

To erase an operation is to take it out of its block and to mark all that is nested in it. Edits can
nest operations in a circle, but an operation has at most one other around it. So a circle below an
operation leads through that operation, and to take it out of its block cuts the circle: it is then
the root of a routine of its own (`Routine.rootedAt`).
-/

namespace BufferOwnership

namespace Routine

variable {r r' apart : Routine} {o p : OpId} {t : OpTree} {doomed : List OpId}

/-! ## An operation that stands alone -/

/-- The same tables, with another operation as the root. -/
def rootedAt (r : Routine) (o : OpId) : Routine := { r with root := o }

theorem Nested.rootedAt (h : r.Nested) (o : OpId) : (r.rootedAt o).Nested where
  op_listed := h.op_listed
  ops_nodup := h.ops_nodup
  region_listed := h.region_listed
  regions_nodup := h.regions_nodup
  block_listed := h.block_listed
  blocks_nodup := h.blocks_nodup

/-- A tree unfolds the tables, wherever the root is. -/
theorem Unfolds.of_rootedAt (h : (r.rootedAt o).Unfolds t) : r.Unfolds t := by
  induction h with
  | node hbelow _ ih => exact .node hbelow ih

theorem subtreeWithin_rootedAt (fuel : Nat) (p : OpId) :
    (r.rootedAt o).subtreeWithin fuel p = r.subtreeWithin fuel p := by
  induction fuel generalizing p with
  | zero => rfl
  | succ fuel ih =>
    rw [subtreeWithin, subtreeWithin, funext ih]
    rfl

/-- What is nested in a detached operation is a finite tree, and the descent lists its nodes. -/
theorem Nested.tree_below (h : r.Nested) (ho : o.index < r.ops.size) (halone : r.parent? o = none) :
    ∃ t : OpTree, t.op = o ∧ r.Unfolds t ∧ t.ops.Nodup ∧ (∀ p, p ∈ t.ops ↔ r.Inside o p) ∧
      r.subtree o = .ok t.ops := by
  obtain ⟨t, htop, ht, hnodup, hmem, hlists⟩ := (h.rootedAt o).formsTree halone ho
  refine ⟨t, htop, ht.of_rootedAt, hnodup, hmem, ?_⟩
  rw [← hlists]
  exact (subtreeWithin_rootedAt ..).symm

/-! ## An operation that is taken out of its block -/

/-- Nested in an operation, or the operation itself, by a way down that does not come back to it.
This is what is nested in the operation once it is taken out of its block. -/
def TakenWith (r : Routine) (o : OpId) : OpId → Prop :=
  Relation.ReflTransGen (fun p q => r.up? q = some p ∧ q ≠ o) o

theorem Linked.exists_unlink (h : r.Linked) (ho : o.index < r.ops.size) :
    ∃ apart, r.unlink o = .ok apart := by
  obtain ⟨d, hd⟩ := exists_op? ho
  rw [Routine.unlink, bind_of_ok (op_of hd)]
  cases hparent : d.parent with
  | none => exact ⟨r, rfl⟩
  | some b =>
    -- the block of the operation lists it, so it has an entry
    obtain ⟨B, hB, -⟩ := exists_block?_of_mem_opsOf
      ((h.op_listed o b).mpr ((parent?_of hd).trans hparent))
    simp only [bind_of_ok (block_eq_ok.mpr hB)]
    exact ⟨_, rfl⟩

section Unlink

variable {d : Op} (hd : r.op? o = some d) (hun : r.unlink o = .ok apart)
include hd hun

theorem holder?_unlink (b : BlockId) : apart.holder? b = r.holder? b := by
  have hrel := Relinked.unlink hd hun
  rw [holder?, holder?, hrel.home?_eq, funext (owner?_congr hrel.regions)]

/-- Only the operation itself loses what is directly around it. -/
theorem up?_unlink (p : OpId) : apart.up? p = if p = o then none else r.up? p := by
  rw [up?, up?, parent?_unlink hd hun, funext (holder?_unlink hd hun)]
  split <;> rfl

theorem inside_unlink_iff : apart.Inside o p ↔ r.TakenWith o p := by
  have hstep : (fun p q => apart.up? q = some p) = fun p q => r.up? q = some p ∧ q ≠ o := by
    funext p q
    rw [up?_unlink hd hun]
    by_cases hq : q = o <;> simp [hq]
  rw [Inside, TakenWith, hstep]

end Unlink

/-! ## Marks -/

/-- The entries of a list without a mark, by the numbers they have from some number on. -/
theorem filterMap_zipIdx_unerased (l : List Op) (k : Nat) :
    ((l.zipIdx k).filterMap fun (d, i) => if d.erased then none else some (⟨i⟩ : OpId)) =
      ((List.range' k l.length).map OpId.mk).filter fun o =>
        !(l[o.index - k]?).any (·.erased) := by
  induction l generalizing k with
  | nil => simp
  | cons d l ih =>
    have hrest : ∀ o ∈ (List.range' (k + 1) l.length).map OpId.mk,
        (!((d :: l)[o.index - k]?).any (·.erased)) =
          !(l[o.index - (k + 1)]?).any (·.erased) := by
      intro o ho
      obtain ⟨i, hi, rfl⟩ := List.mem_map.mp ho
      have hle := (List.mem_range'_1.mp hi).1
      have hplace : i - k = i - (k + 1) + 1 := by omega
      simp [hplace]
    rw [List.length_cons, List.range'_succ, List.map_cons, List.filter_cons,
      List.filter_congr hrest, ← ih, List.zipIdx_cons]
    cases he : d.erased with
    | true => simp [he]
    | false => simp [he]

/-- The operations that are not erased, read off the table entry by entry. -/
theorem liveOps_eq_filter (r : Routine) :
    r.liveOps = r.opIds.filter fun o => !r.isErased o := by
  have hall := filterMap_zipIdx_unerased r.ops.toList 0
  rw [← List.range_eq_range'] at hall
  rw [liveOps, hall, opIds, Array.length_toList]
  refine List.filter_congr fun o _ => ?_
  rw [isErased, op?, Nat.sub_zero, Array.getElem?_toList]

/-- Erasing takes an operation out of its block and marks some operations, and does nothing else. -/
structure Retires (r : Routine) (o : OpId) (doomed : List OpId) (r' : Routine) : Prop where
  op : ∀ p, r'.op? p = (r.op? p).map fun d =>
    { d with
      parent := if p = o then none else d.parent
      erased := d.erased || decide (p ∈ doomed) }
  block : ∀ c, r'.block? c = (r.block? c).map fun B =>
    { B with ops := if r.parent? o = some c then B.ops.filter (· != o) else B.ops }
  regions : r'.regions = r.regions
  values : r'.values = r.values
  root : r'.root = r.root

theorem Retires.size_ops (h : Retires r o doomed r') : r'.ops.size = r.ops.size := by
  have hnone : ∀ i : Nat, r'.ops[i]? = none ↔ r.ops[i]? = none := by
    intro i
    have hentry := h.op ⟨i⟩
    simp only [op?] at hentry
    rw [hentry, Option.map_eq_none_iff]
  have hle : ∀ i, r'.ops.size ≤ i ↔ r.ops.size ≤ i := by simpa using hnone
  exact Nat.le_antisymm ((hle _).mpr (Nat.le_refl _)) ((hle _).mp (Nat.le_refl _))

/-- What is not erased afterwards is what was not erased before, less what is marked. -/
theorem Retires.liveOps (h : Retires r o doomed r') :
    r'.liveOps = r.liveOps.filter (· ∉ doomed) := by
  rw [liveOps_eq_filter, liveOps_eq_filter, List.filter_filter, opIds, opIds, h.size_ops]
  refine List.filter_congr fun p hp => ?_
  obtain ⟨i, hi, rfl⟩ := List.mem_map.mp hp
  obtain ⟨d, hd⟩ := exists_op? (o := ⟨i⟩) (List.mem_range.mp hi)
  simp [isErased, h.op, hd, Bool.and_comm]

theorem retires_of_unlink {d : Op} (hd : r.op? o = some d) (hun : r.unlink o = .ok apart)
    (doomed : List OpId) : Retires r o doomed (apart.retire doomed) := by
  obtain ⟨hop, hblock, hregions, hvalues, hroot, -⟩ := unlink_entries hd hun
  refine ⟨fun p => ?_, fun c => ?_, hregions, hvalues, hroot⟩
  · rw [op?_retire, hop]
    by_cases hp : p = o
    · by_cases hmem : o ∈ doomed
      · simp [hp, hd, hmem]
      · simp [hp, hd, hmem]
    · by_cases hmem : p ∈ doomed <;> simp [hp, hmem]
  · show apart.block? c = _
    rw [hblock, parent?_of hd]
    split
    · rfl
    · simp

/-- Erasing comes to an end wherever links are consistent, and marks what is below the operation. -/
theorem Linked.eraseOp_retires (h : r.Linked) (ho : o.index < r.ops.size) :
    ∃ apart t r', r.unlink o = .ok apart ∧ r.eraseOp o = .ok r' ∧ t.op = o ∧ apart.Unfolds t ∧
      t.ops.Nodup ∧ (∀ p, p ∈ t.ops ↔ r.TakenWith o p) ∧ Retires r o t.ops r' := by
  obtain ⟨d, hd⟩ := exists_op? ho
  obtain ⟨apart, hun⟩ := h.exists_unlink ho
  have halone : apart.parent? o = none := by simp [parent?_unlink hd hun]
  obtain ⟨-, -, -, -, -, hsize, -⟩ := unlink_entries hd hun
  obtain ⟨t, htop, ht, hnodup, hmem, hlists⟩ :=
    (h.toNested.unlink hd hun).tree_below (hsize ▸ ho) halone
  refine ⟨apart, t, apart.retire t.ops, hun, ?_, htop, ht, hnodup, fun p => ?_,
    retires_of_unlink hd hun t.ops⟩
  · rw [Routine.eraseOp, bind_of_ok hun, bind_of_ok hlists]
    rfl
  · rw [hmem, inside_unlink_iff hd hun]

end Routine

variable {r : Routine} {name : String} {params : List Ty} {edits : List RoutineEdit} {o : OpId}

/-- Whatever edits were made of an empty routine, every operation there can be erased. The descent
meets each operation that is below it once: these are the nodes of a finite tree that unfolds the
tables after the operation has been taken out of its block. They are marked, the operation leaves
its block, and nothing else changes. -/
theorem applyAll_empty_eraseOp (h : (Routine.empty name params).applyAll edits = .ok r)
    (ho : o.index < r.ops.size) :
    ∃ apart t r', r.unlink o = .ok apart ∧ r.eraseOp o = .ok r' ∧
      t.op = o ∧ apart.Unfolds t ∧ t.ops.Nodup ∧ (∀ p, p ∈ t.ops ↔ r.TakenWith o p) ∧
      r.Retires o t.ops r' ∧ r'.liveOps = r.liveOps.filter (· ∉ t.ops) := by
  obtain ⟨hlinked, -⟩ := (Routine.empty_linked name params).applyAll h
  obtain ⟨apart, t, r', hun, herase, htop, ht, hnodup, hmem, hretires⟩ :=
    hlinked.eraseOp_retires ho
  exact ⟨apart, t, r', hun, herase, htop, ht, hnodup, hmem, hretires, hretires.liveOps⟩

/-- Two operations are put into each other's block. -/
def circularEdits : List RoutineEdit :=
  [.createOp (.generic "head" []) [] [] 1, .createBlock ⟨1⟩ [],
   .createOp (.generic "tail" []) [] [] 1, .createBlock ⟨2⟩ [],
   .insertOp ⟨2⟩ (.atEnd ⟨1⟩), .insertOp ⟨1⟩ (.atEnd ⟨2⟩)]

/-- Erasing one of the two erases both, and only the routine itself is left. -/
theorem circularEdits_eraseOp :
    ∃ r apart t r', (Routine.empty "circle" []).applyAll circularEdits = .ok r ∧
      r.Inside ⟨1⟩ ⟨2⟩ ∧ r.Inside ⟨2⟩ ⟨1⟩ ∧ r.unlink ⟨1⟩ = .ok apart ∧ r.eraseOp ⟨1⟩ = .ok r' ∧
      apart.Unfolds t ∧ (∀ p, p ∈ t.ops ↔ r.TakenWith ⟨1⟩ p) ∧ r.Retires ⟨1⟩ t.ops r' ∧
      r'.liveOps = [⟨0⟩] := by
  obtain ⟨r, h, hsize, hroot, htail, hhead, hlive⟩ := exists_of_check
    (x := (Routine.empty "circle" []).applyAll circularEdits)
    (P := fun r => 1 < r.ops.size ∧ r.up? ⟨0⟩ = none ∧ r.up? ⟨2⟩ = some ⟨1⟩ ∧
      r.up? ⟨1⟩ = some ⟨2⟩ ∧ r.liveOps = [⟨0⟩, ⟨1⟩, ⟨2⟩])
    (by decide +kernel)
  obtain ⟨apart, t, r', hun, herase, -, ht, -, hmem, hretires, hlive'⟩ :=
    applyAll_empty_eraseOp (o := ⟨1⟩) h hsize
  have hself : ⟨1⟩ ∈ t.ops := (hmem _).mpr .refl
  have hbelow : ⟨2⟩ ∈ t.ops := (hmem _).mpr (.single ⟨htail, by decide⟩)
  -- nothing is around the root, so it is not below another operation
  have habove : ⟨0⟩ ∉ t.ops := by
    intro hin
    obtain heq | ⟨p, -, hup, -⟩ := Relation.ReflTransGen.cases_tail ((hmem _).mp hin)
    · exact absurd heq (by decide)
    · exact absurd (hroot.symm.trans hup) nofun
  refine ⟨r, apart, t, r', h, .single htail, .single hhead, hun, herase, ht, hmem, hretires, ?_⟩
  rw [hlive', hlive]
  simp [hself, hbelow, habove]

end BufferOwnership
