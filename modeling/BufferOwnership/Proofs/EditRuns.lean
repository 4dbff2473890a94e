import BufferOwnership.Proofs.Certify
import BufferOwnership.Proofs.NestingTree

/-!
# What edits can make of a routine

Edits may be called in any order and with any arguments: regions can be moved to an operation inside
them, and an operation can be put into one of its own blocks. All routines made in this way have
consistent links. And as long as the root is not put into a block, what is reached from it is a
finite tree: circles lie beside it.
-/

namespace BufferOwnership

inductive RoutineEdit where
  | createOp (kind : OpKind) (operands : List ValueId) (resultTypes : List Ty) (regionCount : Nat)
  | createBlock (region : RegionId) (argTypes : List Ty)
  | addBlockArg (block : BlockId) (ty : Ty)
  | insertOp (op : OpId) (point : InsertPoint)
  | appendOperands (op : OpId) (operands : List ValueId)
  | replaceAllUses (old new : ValueId)
  | moveRegions (source target : OpId)
  | eraseOp (op : OpId)
deriving DecidableEq

def Routine.apply (r : Routine) : RoutineEdit → Except Fault Routine
  | .createOp kind operands types n => .ok (r.createOp kind operands types n).2
  | .createBlock g types => (r.createBlock g types).map (·.2)
  | .addBlockArg b ty => (r.addBlockArg b ty).map (·.2)
  | .insertOp o point => r.insertOp o point
  | .appendOperands o operands => r.appendOperands o operands
  | .replaceAllUses old new => .ok (r.replaceAllUses old new)
  | .moveRegions source target => r.moveRegions source target
  | .eraseOp o => r.eraseOp o

def Routine.applyAll (r : Routine) : List RoutineEdit → Except Fault Routine
  | [] => .ok r
  | edit :: edits => do (← r.apply edit).applyAll edits

/-- What maps to an answer is one. -/
theorem map_eq_ok {ε α β : Type} {x : Except ε α} {f : α → β} {b : β} :
    x.map f = .ok b ↔ ∃ a, x = .ok a ∧ f a = b := by
  cases x with
  | error e => simp [Except.map]
  | ok a => simp [Except.map]

namespace Routine

variable {r r' : Routine} {name : String} {params types : List Ty} {b : BlockId}
variable {edit : RoutineEdit} {o : OpId}

/-! ## The start -/

section Empty

variable (name : String) (params : List Ty)

theorem op?_empty (o : OpId) : (empty name params).op? o = if o.index = 0 then some
    { kind := .routine name, operands := [], results := [], regions := [⟨0⟩], parent := none
      erased := false } else none := by
  simp only [op?, empty, List.getElem?_toArray, List.getElem?_singleton]

theorem block?_empty (b : BlockId) : (empty name params).block? b = if b.index = 0 then some
    { args := (List.range params.length).map .mk, ops := [], parent := ⟨0⟩ } else none := by
  simp only [block?, empty, List.getElem?_toArray, List.getElem?_singleton]

theorem region?_empty (g : RegionId) : (empty name params).region? g =
    if g.index = 0 then some { blocks := [⟨0⟩], parent := ⟨0⟩ } else none := by
  simp only [region?, empty, List.getElem?_toArray, List.getElem?_singleton]

theorem origin?_empty (v : ValueId) : (empty name params).origin? v =
    if v.index < params.length then some (.argument ⟨0⟩ v.index) else none := by
  simp only [origin?, value?, empty, List.getElem?_toArray, List.getElem?_map,
    List.getElem?_zipIdx, Option.map_map]
  by_cases hv : v.index < params.length <;> simp [hv]

theorem opsOf_empty (b : BlockId) : (empty name params).opsOf b = [] := by
  simp only [opsOf, block?_empty]
  split <;> rfl

theorem resultsOf_empty (o : OpId) : (empty name params).resultsOf o = [] := by
  simp only [resultsOf, op?_empty]
  split <;> rfl

/-- The parameters are the arguments of the entry block, in order. -/
theorem argsOf_empty (v : ValueId) (b : BlockId) (i : Nat) :
    ((empty name params).argsOf b)[i]? = some v ↔
      b.index = 0 ∧ v.index = i ∧ i < params.length := by
  rw [argsOf, block?_empty]
  by_cases hb : b.index = 0
  · by_cases hi : i < params.length
    · simp [hb, hi, ValueId.ext_iff, eq_comm]
    · simp [hb, hi]
  · simp [hb]

/-- An empty routine has a root with a region, and an entry block in it. -/
theorem empty_linked : (empty name params).Linked where
  op_listed o b := by
    rw [opsOf_empty, parent?, op?_empty]
    split <;> simp
  ops_nodup b := by
    rw [opsOf_empty]
    exact List.nodup_nil
  region_listed g o := by
    -- in each table only the first entry is there
    rw [regionsOf, owner?, op?_empty, region?_empty]
    by_cases ho : o.index = 0
    · by_cases hg : g.index = 0
      · simp [ho, hg, RegionId.ext_iff, OpId.ext_iff]
      · simp [ho, hg, RegionId.ext_iff]
    · by_cases hg : g.index = 0
      · simp [ho, hg, OpId.ext_iff, Ne.symm ho]
      · simp [ho, hg]
  regions_nodup o := by
    rw [regionsOf, op?_empty]
    split <;> simp
  block_listed b g := by
    rw [blocksOf, home?, block?_empty, region?_empty]
    by_cases hb : b.index = 0
    · by_cases hg : g.index = 0
      · simp [hb, hg, BlockId.ext_iff, RegionId.ext_iff]
      · simp [hb, hg, RegionId.ext_iff, Ne.symm hg]
    · by_cases hg : g.index = 0
      · simp [hb, hg, BlockId.ext_iff]
      · simp [hb, hg]
  blocks_nodup g := by
    rw [blocksOf, region?_empty]
    split <;> simp
  result_listed v o i := by
    rw [resultsOf_empty, origin?_empty]
    split <;> simp
  arg_listed v b i := by
    rw [argsOf_empty, origin?_empty]
    by_cases hv : v.index < params.length
    · simp only [hv, if_true, Option.some.injEq, ValueOrigin.argument.injEq, BlockId.ext_iff]
      omega
    · simp only [hv, if_false, reduceCtorEq, iff_false]
      omega

end Empty

/-! ## A new block -/

/-- A region gets a block without arguments and operations. -/
def withBlock (r : Routine) (g : RegionId) : Routine :=
  Routine.modifyRegion { r with blocks := r.blocks.push { args := [], ops := [], parent := g } } g
    fun data => { data with blocks := data.blocks ++ [⟨r.blocks.size⟩] }

theorem createBlock_eq_ok {g : RegionId} (h : r.createBlock g types = .ok (b, r')) :
    (∃ G, r.region? g = some G) ∧
      ∃ args, (r.withBlock g).addBlockArgs b types = .ok (args, r') := by
  obtain ⟨G, hG, h⟩ := bind_eq_ok.mp h
  obtain ⟨⟨args, after⟩, hargs, h⟩ := bind_eq_ok.mp h
  cases h
  exact ⟨⟨G, region_eq_ok.mp hG⟩, args, hargs⟩

theorem block?_withBlock (r : Routine) (g : RegionId) (c : BlockId) :
    (r.withBlock g).block? c = if c.index = r.blocks.size
      then some { args := [], ops := [], parent := g } else r.block? c := by
  rw [withBlock, block?_modifyRegion]
  unfold block?
  simp only [Array.getElem?_push]

theorem region?_withBlock (r : Routine) (g k : RegionId) :
    (r.withBlock g).region? k = if k = g
      then (r.region? k).map fun data => { data with blocks := data.blocks ++ [⟨r.blocks.size⟩] }
      else r.region? k := by
  rw [withBlock, region?_modifyRegion]
  rfl

/-- Nothing is there under the number of a new block. -/
theorem block?_eq_none (h : b.index = r.blocks.size) : r.block? b = none :=
  Array.getElem?_eq_none (by omega)

theorem opsOf_withBlock (r : Routine) (g : RegionId) (c : BlockId) :
    (r.withBlock g).opsOf c = r.opsOf c := by
  simp only [opsOf, block?_withBlock]
  split
  · rename_i hc
    simp [block?_eq_none hc]
  · rfl

theorem argsOf_withBlock (r : Routine) (g : RegionId) (c : BlockId) :
    (r.withBlock g).argsOf c = r.argsOf c := by
  simp only [argsOf, block?_withBlock]
  split
  · rename_i hc
    simp [block?_eq_none hc]
  · rfl

theorem owner?_withBlock (r : Routine) (g k : RegionId) :
    (r.withBlock g).owner? k = r.owner? k := by
  simp only [owner?, region?_withBlock]
  split
  · cases r.region? k <;> rfl
  · rfl

theorem home?_withBlock (r : Routine) (g : RegionId) (c : BlockId) :
    (r.withBlock g).home? c = if c.index = r.blocks.size then some g else r.home? c := by
  simp only [home?, block?_withBlock]
  split <;> rfl

section NewBlock

variable {g : RegionId} {G : Region}

theorem blocksOf_withBlock (hG : r.region? g = some G) (k : RegionId) :
    (r.withBlock g).blocksOf k =
      if k = g then r.blocksOf g ++ [⟨r.blocks.size⟩] else r.blocksOf k := by
  simp only [blocksOf, region?_withBlock]
  by_cases hk : k = g
  · simp [hk, hG]
  · simp [hk]

/-- A new block is listed nowhere before. -/
theorem Linked.new_not_listed (h : r.Linked) {c : BlockId} (hc : c.index = r.blocks.size)
    (k : RegionId) : c ∉ r.blocksOf k := by
  intro hmem
  rw [h.block_listed, home?, block?_eq_none hc] at hmem
  cases hmem

theorem Linked.withBlock (h : r.Linked) (hG : r.region? g = some G) :
    (r.withBlock g).Linked where
  op_listed o c := by
    rw [opsOf_withBlock]
    exact h.op_listed o c
  ops_nodup c := by
    rw [opsOf_withBlock]
    exact h.ops_nodup c
  region_listed k o := by
    rw [owner?_withBlock]
    exact h.region_listed k o
  regions_nodup := h.regions_nodup
  block_listed c k := by
    rw [blocksOf_withBlock hG, home?_withBlock]
    by_cases hk : k = g
    · by_cases hc : c.index = r.blocks.size
      · simp [hk, hc, BlockId.ext_iff]
      · simp [hk, hc, BlockId.ext_iff, h.block_listed]
    · by_cases hc : c.index = r.blocks.size
      · simp [hk, hc, h.new_not_listed hc k, Ne.symm hk]
      · simp [hk, hc, h.block_listed]
  blocks_nodup k := by
    rw [blocksOf_withBlock hG]
    split
    · apply List.nodup_append.mpr
      refine ⟨h.blocks_nodup g, List.nodup_singleton _, fun c hc c' hc' => ?_⟩
      rintro rfl
      exact h.new_not_listed (congrArg BlockId.index (List.mem_singleton.mp hc')) g hc
    · exact h.blocks_nodup k
  result_listed := h.result_listed
  arg_listed v c i := by
    rw [argsOf_withBlock]
    exact h.arg_listed v c i

end NewBlock

/-- What holds after every argument that is added holds after all of them. -/
theorem addBlockArgs_induction {P : Routine → Prop} {args : List ValueId}
    (hstep : ∀ {r r' : Routine} {ty : Ty} {arg : ValueId}, r.addBlockArg b ty = .ok (arg, r') → P
      r → P r') (h : r.addBlockArgs b types = .ok (args, r')) (hr : P r) : P r' := by
  induction types generalizing r args with
  | nil =>
    cases h
    exact hr
  | cons ty types ih =>
    obtain ⟨⟨arg, mid⟩, hadd, h⟩ := bind_eq_ok.mp h
    obtain ⟨⟨rest, after⟩, hrest, h⟩ := bind_eq_ok.mp h
    cases h
    exact ih hrest (hstep hadd hr)

theorem Linked.createBlock (h : r.Linked) {g : RegionId}
    (hcreate : r.createBlock g types = .ok (b, r')) : r'.Linked := by
  obtain ⟨⟨G, hG⟩, args, hargs⟩ := createBlock_eq_ok hcreate
  exact addBlockArgs_induction (fun hadd hlinked => hlinked.addBlockArg hadd) hargs
    (h.withBlock hG)

/-! ## Moving regions in a circle -/

/-- An operation that gets its own regions has them already. -/
theorem Linked.moveRegions_self (h : r.Linked) (hmove : r.moveRegions o o = .ok r') : r' = r := by
  simp only [Routine.moveRegions, bind_eq_ok, op_eq_ok, getElem?_ops] at hmove
  obtain ⟨d, hd, mid, hmid, e, he, hmove⟩ := hmove
  cases hmove
  obtain ⟨hregion, hops, hblocks, hvalues, hroot, -⟩ := reparentRegions_entries hmid
  have hops' : (mid.modifyOp o fun data => { data with regions := data.regions ++ d.regions }).ops =
      r.ops := by
    apply Array.ext_getElem?
    intro i
    have hentry := op?_modifyOp mid o
      (fun data => { data with regions := data.regions ++ d.regions }) ⟨i⟩
    have hemptied := op?_modifyOp r o (fun data => { data with regions := [] }) ⟨i⟩
    have hsame : mid.op? ⟨i⟩ = (r.modifyOp o fun data => { data with regions := [] }).op? ⟨i⟩ := by
      simp only [op?, hops]
    show (mid.modifyOp o _).op? ⟨i⟩ = r.op? ⟨i⟩
    rw [hentry, hsame, hemptied]
    by_cases hi : (⟨i⟩ : OpId) = o
    · rw [if_pos hi, if_pos hi, hi, hd]
      rfl
    · rw [if_neg hi, if_neg hi]
  have hregions : mid.regions = r.regions := by
    apply Array.ext_getElem?
    intro i
    show mid.region? ⟨i⟩ = r.region? ⟨i⟩
    rw [hregion ⟨i⟩]
    split
    · -- a region of the operation names it as its parent already
      rename_i hg
      have howner := (h.region_listed ⟨i⟩ o).mp (by rwa [regionsOf_of hd])
      obtain ⟨G, hG, hparent⟩ := Option.map_eq_some_iff.mp howner
      have hG' : (r.modifyOp o fun data => { data with regions := [] }).region? ⟨i⟩ = some G := hG
      rw [hG', hG, Option.map_some, ← hparent]
    · rfl
  cases r
  cases mid
  simp only [modifyOp] at hops' hvalues hblocks hroot hregions ⊢
  simp only [hops', hvalues, hblocks, hroot, hregions]

/-! ## One edit -/

/-- Every edit keeps links consistent. -/
theorem Linked.apply (h : r.Linked) (happly : r.apply edit = .ok r') : r'.Linked := by
  cases edit with
  | createOp kind operands types n =>
    cases happly
    exact h.createOp kind operands types n
  | createBlock g types =>
    obtain ⟨⟨b, after⟩, hcreate, rfl⟩ := map_eq_ok.mp happly
    exact h.createBlock hcreate
  | addBlockArg b ty =>
    obtain ⟨⟨arg, after⟩, hadd, rfl⟩ := map_eq_ok.mp happly
    exact h.addBlockArg hadd
  | insertOp o point => exact h.insertOp happly
  | appendOperands o operands => exact h.appendOperands happly
  | replaceAllUses old new =>
    cases happly
    exact h.relabelled (.replaceEach r [(old, new)])
  | moveRegions source target =>
    by_cases hne : source = target
    · subst hne
      rw [h.moveRegions_self happly]
      exact h
    · exact Linked.moveRegions hne happly h
  | eraseOp o => exact h.eraseOp happly

/-- What an edit leaves alone: the root is the same, no entry of an operation goes, and no
operation comes into a block but the one that is inserted. -/
structure Upholds (edit : RoutineEdit) (r r' : Routine) : Prop where
  root : r'.root = r.root
  size : r.ops.size ≤ r'.ops.size
  detached : ∀ o, (∀ point, edit ≠ .insertOp o point) → r.parent? o = none → r'.parent? o = none

theorem Upholds.of_parent? (hroot : r'.root = r.root) (hsize : r.ops.size ≤ r'.ops.size)
    (hparent : ∀ o, r'.parent? o = r.parent? o) : Upholds edit r r' :=
  ⟨hroot, hsize, fun o _ ho => (hparent o).trans ho⟩

theorem Upholds.of_relabelled (h : Relabelled r r') : Upholds edit r r' :=
  .of_parent? h.root (Nat.le_of_eq h.size_ops.symm) h.parent?_eq

theorem upholds_createBlock {g : RegionId} (h : r.createBlock g types = .ok (b, r')) :
    Upholds (.createBlock g types) r r' := by
  obtain ⟨-, args, hargs⟩ := createBlock_eq_ok h
  -- arguments change neither the root nor the table of operations
  have hkept : r'.root = r.root ∧ r'.ops = r.ops := by
    apply addBlockArgs_induction (P := fun m => m.root = r.root ∧ m.ops = r.ops) ?_ hargs ⟨rfl, rfl⟩
    intro m m' ty arg hadd hm
    obtain ⟨B, -, -, rfl⟩ := addBlockArg_eq_ok hadd
    exact hm
  exact .of_parent? hkept.1 (hkept.2 ▸ Nat.le_refl _) fun o => by simp only [parent?, op?, hkept.2]

theorem Linked.upholds_moveRegions (h : r.Linked) {source target : OpId}
    (hmove : r.moveRegions source target = .ok r') : Upholds (.moveRegions source target) r r' := by
  by_cases hne : source = target
  · subst hne
    rw [h.moveRegions_self hmove]
    exact .of_parent? rfl (Nat.le_refl _) fun _ => rfl
  · obtain ⟨d, hd, hop, -, -, -, hroot, hsize, -⟩ := moveRegions_entries hne hmove
    exact .of_parent? hroot (Nat.le_of_eq hsize.symm) (Nested.parent?_moveRegions hne hmove)

theorem upholds_eraseOp (h : r.eraseOp o = .ok r') : Upholds (.eraseOp o) r r' := by
  have hrel := Relinked.eraseOp h
  refine ⟨hrel.root, Nat.le_of_eq hrel.size_ops.symm, fun p _ hp => ?_⟩
  rw [parent?_eraseOp h, hp, ite_self]

theorem Linked.upholds (h : r.Linked) (happly : r.apply edit = .ok r') : Upholds edit r r' := by
  cases edit with
  | createOp kind operands types n =>
    cases happly
    exact .of_parent? rfl (by simp) fun o => parent?_createOp ..
  | createBlock g types =>
    obtain ⟨⟨b, after⟩, hcreate, rfl⟩ := map_eq_ok.mp happly
    exact upholds_createBlock hcreate
  | addBlockArg b ty =>
    obtain ⟨⟨arg, after⟩, hadd, rfl⟩ := map_eq_ok.mp happly
    obtain ⟨B, -, -, rfl⟩ := addBlockArg_eq_ok hadd
    exact .of_parent? rfl (Nat.le_refl _) fun _ => rfl
  | insertOp o point =>
    obtain ⟨d, b, B, pre, post, -, -, -, -, -, hop, -, -, -, hroot, hsize, -⟩ :=
      insertOp_entries happly
    -- only what is inserted gets a block
    refine ⟨hroot, (Nat.le_of_eq hsize.symm), fun p hp hnone => ?_⟩
    have hne : p ≠ o := fun he => hp point (he ▸ rfl)
    rw [parent?, hop, if_neg hne]
    exact hnone
  | appendOperands o operands => exact .of_relabelled (.appendOperands happly)
  | replaceAllUses old new =>
    cases happly
    exact .of_relabelled (.replaceEach r [(old, new)])
  | moveRegions source target => exact h.upholds_moveRegions happly
  | eraseOp o => exact upholds_eraseOp happly

/-! ## All edits -/

/-- Links are consistent and the root is there, after any edits. If none of them puts the root into
a block, it still stands alone. -/
theorem Linked.applyAll (h : r.Linked) {edits : List RoutineEdit}
    (happly : r.applyAll edits = .ok r') :
    r'.Linked ∧ r'.root = r.root ∧ r.ops.size ≤ r'.ops.size ∧
      ((∀ point, .insertOp r.root point ∉ edits) → r.parent? r.root = none →
        r'.parent? r.root = none) := by
  induction edits generalizing r with
  | nil =>
    cases happly
    exact ⟨h, rfl, (Nat.le_refl _), fun _ hnone => hnone⟩
  | cons edit edits ih =>
    obtain ⟨mid, hmid, hrest⟩ := bind_eq_ok.mp happly
    have hstep := h.upholds hmid
    obtain ⟨hlinked, hroot, hsize, hdetached⟩ := ih (h.apply hmid) hrest
    rw [hstep.root] at hroot hdetached
    refine ⟨hlinked, hroot, Nat.le_trans hstep.size hsize, fun hnever hnone => ?_⟩
    apply hdetached
    · exact fun point hmem => hnever point (List.mem_cons_of_mem _ hmem)
    · exact hstep.detached _ (fun point he => hnever point (he ▸ List.mem_cons_self)) hnone

/-! ## Lists over a whole table -/

section Tables

variable {α β : Type} {table : Array α} {listed : α → List β} (home : β → Option Nat)

/-- What the entries of a table list is listed once, if each entry lists what has its home there. -/
theorem nodup_flatMap_table (hnodup : ∀ (i : Nat) (a : α), table[i]? = some a → (listed a).Nodup)
    (hhome : ∀ (i : Nat) (a : α), table[i]? = some a → ∀ x ∈ listed a, home x = some i) :
    (table.toList.flatMap listed).Nodup := by
  refine List.nodup_flatMap.mpr ⟨fun a ha => ?_, ?_⟩
  · obtain ⟨i, hi⟩ := List.mem_iff_getElem?.mp ha
    exact hnodup i a (by simpa using hi)
  · rw [List.pairwise_iff_getElem]
    intro i j hi hj hlt x hx hx'
    have hxi := hhome i _ (by simp) x hx
    have hxj := hhome j _ (by simp) x hx'
    have hij : i = j := Option.mem_unique hxi hxj
    omega

/-- If each entry lists what has its home there, the table lists the given things, each once. -/
theorem flatMap_table_perm {all : List β} (hall : all.Nodup)
    (hnodup : ∀ (i : Nat) (a : α), table[i]? = some a → (listed a).Nodup)
    (hhome : ∀ (i : Nat) (a : α), table[i]? = some a → ∀ x ∈ listed a, home x = some i)
    (hmem : ∀ x, x ∈ all ↔ ∃ (i : Nat) (a : α), table[i]? = some a ∧ x ∈ listed a) :
    (table.toList.flatMap listed).Perm all := by
  refine (List.perm_ext_iff_of_nodup (nodup_flatMap_table home hnodup hhome) hall).mpr fun x => ?_
  rw [hmem, List.mem_flatMap]
  constructor
  · rintro ⟨a, ha, hx⟩
    obtain ⟨i, hi⟩ := List.mem_iff_getElem?.mp ha
    exact ⟨i, a, by simpa using hi, hx⟩
  · rintro ⟨i, a, ha, hx⟩
    exact ⟨a, Array.mem_toList_iff.mpr (Array.mem_of_getElem? ha), hx⟩

end Tables

theorem mem_regionIds_iff {g : RegionId} : g ∈ r.regionIds ↔ ∃ G, r.region? g = some G := by
  refine ⟨fun hg => ?_, fun ⟨G, hG⟩ => mem_regionIds (by simp [hG])⟩
  obtain ⟨i, hi, rfl⟩ := List.mem_map.mp hg
  exact ⟨_, Array.getElem?_eq_getElem (List.mem_range.mp hi)⟩

theorem mem_blockIds_iff : b ∈ r.blockIds ↔ ∃ B, r.block? b = some B := by
  refine ⟨fun hb => ?_, fun ⟨B, hB⟩ => mem_blockIds (by simp [hB])⟩
  obtain ⟨i, hi, rfl⟩ := List.mem_map.mp hb
  exact ⟨_, Array.getElem?_eq_getElem (List.mem_range.mp hi)⟩

/-- Over all blocks, every operation is listed at most once. -/
theorem Linked.nodup_listedOps (h : r.Linked) : (r.blocks.toList.flatMap (·.ops)).Nodup := by
  have hops : ∀ (i : Nat) (B : Block), r.blocks[i]? = some B → B.ops = r.opsOf ⟨i⟩ :=
    fun i B hB => (opsOf_of (r := r) (b := ⟨i⟩) hB).symm
  apply nodup_flatMap_table fun o => (r.parent? o).map (·.index)
  · intro i B hB
    rw [hops i B hB]
    exact h.ops_nodup ⟨i⟩
  · intro i B hB o ho
    rw [hops i B hB] at ho
    rw [(h.op_listed o ⟨i⟩).mp ho]
    rfl

/-- Over all operations, every region is listed exactly once. -/
theorem Linked.listedRegions_perm (h : r.Linked) :
    (r.ops.toList.flatMap (·.regions)).Perm r.regionIds := by
  have hregions : ∀ (i : Nat) (d : Op), r.ops[i]? = some d → d.regions = r.regionsOf ⟨i⟩ :=
    fun i d hd => (regionsOf_of (r := r) (o := ⟨i⟩) hd).symm
  apply flatMap_table_perm fun g => (r.owner? g).map (·.index)
  · exact List.nodup_range.map fun i j he => by simpa using he
  · intro i d hd
    rw [hregions i d hd]
    exact h.regions_nodup ⟨i⟩
  · intro i d hd g hg
    rw [hregions i d hd] at hg
    rw [(h.region_listed g ⟨i⟩).mp hg]
    rfl
  · intro g
    rw [mem_regionIds_iff]
    constructor
    · -- the parent of a region lists it, so it has an entry
      rintro ⟨G, hG⟩
      obtain ⟨d, hd, hg⟩ := exists_op?_of_mem_regionsOf ((h.region_listed g _).mpr (owner?_of hG))
      exact ⟨_, d, hd, hg⟩
    · rintro ⟨i, d, hd, hg⟩
      rw [hregions i d hd] at hg
      obtain ⟨G, hG, -⟩ := Option.map_eq_some_iff.mp ((h.region_listed g ⟨i⟩).mp hg)
      exact ⟨G, hG⟩

/-- Over all regions, every block is listed exactly once. -/
theorem Linked.listedBlocks_perm (h : r.Linked) :
    (r.regions.toList.flatMap (·.blocks)).Perm r.blockIds := by
  have hblocks : ∀ (i : Nat) (G : Region), r.regions[i]? = some G → G.blocks = r.blocksOf ⟨i⟩ :=
    fun i G hG => (blocksOf_of (r := r) (g := ⟨i⟩) hG).symm
  apply flatMap_table_perm fun b => (r.home? b).map (·.index)
  · exact List.nodup_range.map fun i j he => by simpa using he
  · intro i G hG
    rw [hblocks i G hG]
    exact h.blocks_nodup ⟨i⟩
  · intro i G hG b hb
    rw [hblocks i G hG] at hb
    rw [(h.block_listed b ⟨i⟩).mp hb]
    rfl
  · -- each block names the region that lists it
    intro b
    rw [mem_blockIds_iff]
    constructor
    · rintro ⟨B, hB⟩
      have hmem := (h.block_listed b _).mpr (home?_of hB)
      cases hG : r.region? B.parent with
      | none => simp [blocksOf, hG] at hmem
      | some G => exact ⟨_, G, hG, blocksOf_of hG ▸ hmem⟩
    · rintro ⟨i, G, hG, hb⟩
      rw [hblocks i G hG] at hb
      obtain ⟨B, hB, -⟩ := Option.map_eq_some_iff.mp ((h.block_listed b ⟨i⟩).mp hb)
      exact ⟨B, hB⟩

end Routine

variable {r : Routine} {name : String} {params : List Ty} {edits : List RoutineEdit}

/-- Whatever edits are made of an empty routine, every link goes both ways. Over the whole tables,
an operation is listed at most once, and a region or a block exactly once. If the root has never
been put into a block, the operations that are reached from it form a finite tree. -/
theorem applyAll_empty_consistent (h : (Routine.empty name params).applyAll edits = .ok r) :
    r.Linked ∧ (r.blocks.toList.flatMap (·.ops)).Nodup ∧
      (r.ops.toList.flatMap (·.regions)).Perm r.regionIds ∧
      (r.regions.toList.flatMap (·.blocks)).Perm r.blockIds ∧
      ((∀ point, .insertOp r.root point ∉ edits) → r.FormsTree) := by
  obtain ⟨hlinked, hroot, hsize, hdetached⟩ := (Routine.empty_linked name params).applyAll h
  refine ⟨hlinked, hlinked.nodup_listedOps, hlinked.listedRegions_perm, hlinked.listedBlocks_perm,
    fun hnever => ?_⟩
  rw [hroot] at hnever
  have hknown : r.root.index < r.ops.size := by
    rw [hroot]
    exact Nat.lt_of_lt_of_le Nat.zero_lt_one hsize
  apply hlinked.formsTree
  · rw [hroot]
    exact hdetached hnever rfl
  · exact hknown

/-- Regions go to an operation inside them, an operation into its own block, an erased one back. -/
def tangledEdits : List RoutineEdit :=
  [.createOp (.generic "outer" []) [] [] 1, .createBlock ⟨1⟩ [],
   .createOp (.generic "inner" []) [⟨7⟩] [.scalar .i1] 1, .createBlock ⟨2⟩ [.ownership],
   .insertOp ⟨1⟩ (.atEnd ⟨0⟩), .insertOp ⟨2⟩ (.atEnd ⟨1⟩), .moveRegions ⟨1⟩ ⟨2⟩,
   .createOp (.generic "ring" []) [] [] 1, .createBlock ⟨3⟩ [], .insertOp ⟨3⟩ (.atEnd ⟨3⟩),
   .moveRegions ⟨3⟩ ⟨3⟩, .eraseOp ⟨1⟩, .insertOp ⟨1⟩ (.atEnd ⟨0⟩), .addBlockArg ⟨2⟩ .ownership,
   .replaceAllUses ⟨7⟩ ⟨0⟩, .appendOperands ⟨1⟩ [⟨9⟩]]

theorem tangledEdits_consistent :
    ∃ r, (Routine.empty "tangled" []).applyAll tangledEdits = .ok r ∧ r.Linked ∧ r.FormsTree := by
  obtain ⟨r, h, hroot⟩ := exists_of_check (x := (Routine.empty "tangled" []).applyAll tangledEdits)
    (P := fun r => r.root = ⟨0⟩) (by decide +kernel)
  have hall := applyAll_empty_consistent h
  exact ⟨r, h, hall.1, hall.2.2.2.2 (by simp [hroot, tangledEdits])⟩

end BufferOwnership
