import BufferOwnership.Proofs.Emission
import Mathlib.Data.List.Nodup
import Mathlib.Logic.Relation

/-!
# Consistent links

The parts of a routine name each other twice: a block lists an operation, and the operation names
the block; likewise for regions, blocks and values. `Linked` says that the two directions agree
and that nothing is listed twice; `Nested` is the part without the values. Every edit keeps both,
without any condition.
-/

namespace BufferOwnership

namespace Routine

variable {r r' r'' : Routine} {o x : OpId} {b : BlockId} {v arg : ValueId} {d : Op} {ty : Ty}
variable {point : InsertPoint} {i : Nat}

/-- The links between operations, blocks and regions go both ways, and nothing is listed twice. -/
structure Nested (r : Routine) : Prop where
  op_listed : ∀ o b, o ∈ r.opsOf b ↔ r.parent? o = some b
  ops_nodup : ∀ b, (r.opsOf b).Nodup
  region_listed : ∀ g o, g ∈ r.regionsOf o ↔ r.owner? g = some o
  regions_nodup : ∀ o, (r.regionsOf o).Nodup
  block_listed : ∀ b g, b ∈ r.blocksOf g ↔ r.home? b = some g
  blocks_nodup : ∀ g, (r.blocksOf g).Nodup

/-- Every link goes both ways: also those between values and what they come from. -/
structure Linked (r : Routine) : Prop extends r.Nested where
  result_listed : ∀ v o i, (r.resultsOf o)[i]? = some v ↔ r.origin? v = some (.result o i)
  arg_listed : ∀ v b i, (r.argsOf b)[i]? = some v ↔ r.origin? v = some (.argument b i)

/-! ## A new operation -/

theorem region?_eq_none {g : RegionId} (h : r.regions.size ≤ g.index) : r.region? g = none :=
  Array.getElem?_eq_none h

theorem value?_eq_none (h : r.values.size ≤ v.index) : r.value? v = none :=
  Array.getElem?_eq_none h

theorem origin?_of_fresh {n : Nat} (h : v ∈ r.freshValues n) : r.origin? v = none := by
  simp [origin?, value?_eq_none (mem_freshValues.mp h).1]

/-- A new value is found at its distance from the first new one. -/
theorem getElem?_freshValues_eq_some {n : Nat} :
    (r.freshValues n)[i]? = some v ↔ v ∈ r.freshValues n ∧ i = v.index - r.values.size := by
  rw [getElem?_freshValues, mem_freshValues]
  by_cases hi : i < n
  · simp only [hi, if_true, Option.some.injEq, ValueId.ext_iff]
    omega
  · simp only [hi, if_false, reduceCtorEq, false_iff]
    omega

section CreateOp

variable (r) (kind : OpKind) (operands : List ValueId) (types : List Ty) (n : Nat)

theorem parent?_createOp (p : OpId) :
    (r.createOp kind operands types n).2.parent? p = r.parent? p := by
  simp only [parent?, op?_createOp]
  by_cases hp : p = r.freshOp
  · simp [hp, op?_freshOp]
  · simp [hp]

theorem regionsOf_createOp (p : OpId) :
    (r.createOp kind operands types n).2.regionsOf p =
      if p = r.freshOp then r.freshRegions n else r.regionsOf p := by
  simp only [regionsOf, op?_createOp]
  by_cases hp : p = r.freshOp <;> simp [hp]

theorem resultsOf_createOp (p : OpId) :
    (r.createOp kind operands types n).2.resultsOf p =
      if p = r.freshOp then r.freshValues types.length else r.resultsOf p := by
  simp only [resultsOf, op?_createOp]
  by_cases hp : p = r.freshOp <;> simp [hp]

theorem owner?_createOp (g : RegionId) :
    (r.createOp kind operands types n).2.owner? g =
      if g ∈ r.freshRegions n then some r.freshOp else r.owner? g := by
  simp only [owner?, region?_createOp, mem_freshRegions]
  by_cases hg : g.index < r.regions.size
  · have hg' : ¬ r.regions.size ≤ g.index := by omega
    simp [hg, hg']
  · have hg' : r.regions.size ≤ g.index := by omega
    by_cases hn : g.index < r.regions.size + n
    · simp [hg, hg', hn]
    · simp [hg, hg', hn, region?_eq_none hg']

theorem blocksOf_createOp (g : RegionId) :
    (r.createOp kind operands types n).2.blocksOf g = r.blocksOf g := by
  simp only [blocksOf, region?_createOp]
  by_cases hg : g.index < r.regions.size
  · simp [hg]
  · have hnone : r.region? g = none := region?_eq_none (by omega)
    by_cases hn : g.index < r.regions.size + n <;> simp [hg, hn, hnone]

theorem origin?_createOp (v : ValueId) :
    (r.createOp kind operands types n).2.origin? v =
      if v ∈ r.freshValues types.length then
        some (.result r.freshOp (v.index - r.values.size))
      else r.origin? v := by
  simp only [origin?, value?_createOp, mem_freshValues]
  by_cases hv : v.index < r.values.size
  · have hv' : ¬ r.values.size ≤ v.index := by omega
    simp [hv, hv']
  · have hv' : r.values.size ≤ v.index := by omega
    by_cases hn : v.index < r.values.size + types.length
    · have hi : v.index - r.values.size < types.length := by omega
      simp [hv, hv', hn, List.getElem?_eq_getElem hi]
    · have hi : types[v.index - r.values.size]? = none := by
        rw [List.getElem?_eq_none_iff]
        omega
      simp [hv, hv', hn, hi, value?_eq_none hv']

end CreateOp

/-! ## A new argument -/

section AddBlockArg

variable (h : r.addBlockArg b ty = .ok (arg, r'))
include h

theorem argsOf_addBlockArg (c : BlockId) :
    r'.argsOf c = if c = b then r.argsOf b ++ [arg] else r.argsOf c := by
  obtain ⟨B, hB, -, -⟩ := addBlockArg_eq_ok h
  simp only [argsOf, block?_addBlockArg h]
  by_cases hc : c = b
  · simp [hc, hB]
  · simp [hc]

theorem opsOf_addBlockArg (c : BlockId) : r'.opsOf c = r.opsOf c := by
  simp only [opsOf, block?_addBlockArg h]
  split
  · cases r.block? c <;> rfl
  · rfl

theorem home?_addBlockArg (c : BlockId) : r'.home? c = r.home? c := by
  simp only [home?, block?_addBlockArg h]
  split
  · cases r.block? c <;> rfl
  · rfl

theorem origin?_addBlockArg (v : ValueId) : r'.origin? v =
    if v = arg then some (.argument b (r.argsOf b).length) else r.origin? v := by
  simp only [origin?, value?_addBlockArg h]
  by_cases hv : v = arg <;> simp [hv]

theorem origin?_of_addBlockArg : r.origin? arg = none := by
  rw [addBlockArg_arg h]
  simp [origin?, value?_eq_none]

end AddBlockArg

/-- Taking an operation out of its own block is taking it out of all of them. -/
theorem Nested.opsOf_of_filtered (h : r.Nested) (hd : r.op? o = some d)
    (hblock : ∀ c, r'.block? c = if d.parent = some c
      then (r.block? c).map fun B => { B with ops := B.ops.filter fun p => p != o }
      else r.block? c) (c : BlockId) :
    r'.opsOf c = (r.opsOf c).filter fun p => p != o := by
  simp only [opsOf, hblock]
  by_cases hc : d.parent = some c
  · cases r.block? c with
    | none => simp [hc]
    | some B => simp [hc]
  · have hout : o ∉ r.opsOf c := by
      rw [h.op_listed, parent?_of hd]
      exact hc
    have hsame := filter_ne_of_notMem hout
    unfold opsOf at hsame
    simp [hc, hsame]

/-! ## Edits of operations and lists

The structures below say what an edit leaves alone, so that whatever only reads that need not look
at the edit. -/

/-- Operations differ only in operands, place and mark, and blocks only in their lists. -/
structure Relinked (r r' : Routine) : Prop where
  op : ∀ o, (r'.op? o).map (fun d => (d.kind, d.results, d.regions)) =
    (r.op? o).map fun d => (d.kind, d.results, d.regions)
  block : ∀ b, (r'.block? b).map (fun B => (B.args, B.parent)) =
    (r.block? b).map fun B => (B.args, B.parent)
  regions : r'.regions = r.regions
  values : r'.values = r.values
  root : r'.root = r.root
  size_ops : r'.ops.size = r.ops.size

/-- Operations differ only in operands and mark. -/
structure Relabelled (r r' : Routine) : Prop where
  op : ∀ o, (r'.op? o).map (fun d => (d.parent, d.kind, d.results, d.regions)) =
    (r.op? o).map fun d => (d.parent, d.kind, d.results, d.regions)
  blocks : r'.blocks = r.blocks
  regions : r'.regions = r.regions
  values : r'.values = r.values
  root : r'.root = r.root
  size_ops : r'.ops.size = r.ops.size

namespace Relinked

theorem trans (h : Relinked r r') (h' : Relinked r' r'') : Relinked r r'' where
  op o := (h'.op o).trans (h.op o)
  block b := (h'.block b).trans (h.block b)
  regions := h'.regions.trans h.regions
  values := h'.values.trans h.values
  root := h'.root.trans h.root
  size_ops := h'.size_ops.trans h.size_ops

theorem kind?_eq (h : Relinked r r') (p : OpId) : r'.kind? p = r.kind? p := by
  have hsame := congrArg (Option.map Prod.fst) (h.op p)
  simpa [kind?, Option.map_map, Function.comp_def] using hsame

theorem resultsOf_eq (h : Relinked r r') (p : OpId) : r'.resultsOf p = r.resultsOf p := by
  have hsame := congrArg (Option.elim · [] (·.2.1)) (h.op p)
  simpa [resultsOf, Option.elim_map, Function.comp_def] using hsame

theorem regionsOf_eq (h : Relinked r r') (p : OpId) : r'.regionsOf p = r.regionsOf p := by
  have hsame := congrArg (Option.elim · [] (·.2.2)) (h.op p)
  simpa [regionsOf, Option.elim_map, Function.comp_def] using hsame

theorem argsOf_eq (h : Relinked r r') (b : BlockId) : r'.argsOf b = r.argsOf b := by
  have hsame := congrArg (Option.elim · [] Prod.fst) (h.block b)
  simpa [argsOf, Option.elim_map, Function.comp_def] using hsame

theorem home?_eq (h : Relinked r r') (b : BlockId) : r'.home? b = r.home? b := by
  have hsame := congrArg (Option.map Prod.snd) (h.block b)
  simpa [home?, Option.map_map, Function.comp_def] using hsame

theorem insertOp (hins : r.insertOp o point = .ok r') : Relinked r r' := by
  obtain ⟨d, b, B, _, _, hd, -, hB, -, -, hop, hblock, hregions, hvalues, hroot, hsize, -⟩ :=
    insertOp_entries hins
  refine ⟨fun p => ?_, fun c => ?_, hregions, hvalues, hroot, hsize⟩
  · rw [hop]
    by_cases hp : p = o
    · simp [hp, hd]
    · simp [hp]
  · rw [hblock]
    by_cases hc : c = b
    · simp [hc, hB]
    · simp [hc]

theorem unlink (hd : r.op? o = some d) (hun : r.unlink o = .ok r') : Relinked r r' := by
  obtain ⟨hop, hblock, hregions, hvalues, hroot, hsize, -⟩ := unlink_entries hd hun
  refine ⟨fun p => ?_, fun c => ?_, hregions, hvalues, hroot, hsize⟩
  · rw [hop]
    by_cases hp : p = o
    · simp [hp, hd]
    · simp [hp]
  · rw [hblock]
    split
    · rw [Option.map_map]
      rfl
    · rfl

end Relinked

namespace Relabelled

theorem relinked (h : Relabelled r r') : Relinked r r' where
  op o := by
    have hsame := congrArg (Option.map Prod.snd) (h.op o)
    simpa [Option.map_map, Function.comp_def] using hsame
  block b := by simp only [block?, h.blocks]
  regions := h.regions
  values := h.values
  root := h.root
  size_ops := h.size_ops

theorem parent?_eq (h : Relabelled r r') (p : OpId) : r'.parent? p = r.parent? p := by
  have hsame := congrArg (Option.bind · Prod.fst) (h.op p)
  simpa [parent?, Option.bind_map, Function.comp_def] using hsame

theorem appendOperands {vs : List ValueId} (happ : r.appendOperands o vs = .ok r') :
    Relabelled r r' := by
  obtain ⟨d, -, rfl⟩ := appendOperands_eq_ok happ
  refine ⟨fun p => ?_, rfl, rfl, rfl, rfl, by simp [modifyOp]⟩
  rw [op?_modifyOp]
  split
  · rw [Option.map_map]
    rfl
  · rfl

theorem replaceEach (r : Routine) (pairs : List (ValueId × ValueId)) :
    Relabelled r (r.replaceEach pairs) := by
  obtain ⟨hvalues, hblocks, hregions, hroot, hsize⟩ := replaceEach_tables r pairs
  refine ⟨fun p => ?_, hblocks, hregions, hvalues, hroot, hsize⟩
  rw [op?_replaceEach, Option.map_map]
  congr 1
  funext d
  by_cases he : d.erased = true <;> simp [he]

theorem retire (r : Routine) (doomed : List OpId) : Relabelled r (r.retire doomed) := by
  refine ⟨fun p => ?_, rfl, rfl, rfl, rfl, by simp [Routine.retire]⟩
  rw [op?_retire, Option.map_map]
  congr 1
  funext d
  by_cases hp : p ∈ doomed <;> simp [hp]

end Relabelled

/-- An operation is unlinked, and then it and what is inside it are marked. -/
theorem eraseOp_eq_ok (h : r.eraseOp o = .ok r') : ∃ d mid doomed, r.op? o = some d ∧
    r.unlink o = .ok mid ∧ r' = mid.retire doomed := by
  obtain ⟨mid, hun, hrest⟩ := bind_eq_ok.mp h
  obtain ⟨doomed, -, hret⟩ := bind_eq_ok.mp hrest
  cases hret
  obtain ⟨d, hd, -⟩ := bind_eq_ok.mp hun
  exact ⟨d, mid, doomed, op_eq_ok.mp hd, hun, rfl⟩

theorem Relinked.eraseOp (h : r.eraseOp o = .ok r') : Relinked r r' := by
  obtain ⟨d, mid, doomed, hd, hun, rfl⟩ := eraseOp_eq_ok h
  exact (Relinked.unlink hd hun).trans (Relabelled.retire mid doomed).relinked

theorem parent?_unlink (hd : r.op? o = some d) (hun : r.unlink o = .ok r') (p : OpId) :
    r'.parent? p = if p = o then none else r.parent? p := by
  obtain ⟨hop, -⟩ := unlink_entries hd hun
  simp only [parent?, hop]
  split <;> rfl

theorem parent?_eraseOp (h : r.eraseOp o = .ok r') (p : OpId) :
    r'.parent? p = if p = o then none else r.parent? p := by
  obtain ⟨d, mid, doomed, hd, hun, rfl⟩ := eraseOp_eq_ok h
  rw [(Relabelled.retire mid doomed).parent?_eq, parent?_unlink hd hun]

/-! ## Operations, blocks and regions -/

namespace Nested

theorem createOp (h : r.Nested) (kind : OpKind) (operands : List ValueId) (types : List Ty)
    (n : Nat) : (r.createOp kind operands types n).2.Nested where
  op_listed o b := (h.op_listed o b).trans (by rw [parent?_createOp])
  ops_nodup := h.ops_nodup
  region_listed g o := by
    rw [regionsOf_createOp, owner?_createOp]
    have hold : g ∈ r.freshRegions n → r.owner? g = none := by
      intro hg
      simp [owner?, region?_eq_none (mem_freshRegions.mp hg).1]
    have hnone : r.owner? g ≠ some r.freshOp := by
      intro hg
      obtain ⟨d, hd, -⟩ := exists_op?_of_mem_regionsOf ((h.region_listed g _).mpr hg)
      exact ne_freshOp hd rfl
    -- the new regions belong to the new operation, and no others do
    by_cases ho : o = r.freshOp
    · subst ho
      by_cases hg : g ∈ r.freshRegions n
      · simp [hg]
      · simp [hg, hnone]
    · by_cases hg : g ∈ r.freshRegions n
      · simp [ho, hg, h.region_listed, hold hg, Ne.symm ho]
      · simp [ho, hg, h.region_listed]
  regions_nodup o := by
    rw [regionsOf_createOp]
    split
    · exact List.nodup_range.map fun i j e => by simpa using e
    · exact h.regions_nodup o
  block_listed b g := blocksOf_createOp r kind operands types n g ▸ h.block_listed b g
  blocks_nodup g := blocksOf_createOp r kind operands types n g ▸ h.blocks_nodup g

/-- Where only lists of operations and their parents change, these have to agree. -/
theorem relinked (h : r.Nested) (hrel : Relinked r r')
    (hlisted : ∀ o b, o ∈ r'.opsOf b ↔ r'.parent? o = some b)
    (hnodup : ∀ b, (r'.opsOf b).Nodup) : r'.Nested where
  op_listed := hlisted
  ops_nodup := hnodup
  region_listed g o := by rw [hrel.regionsOf_eq, owner?_congr hrel.regions, h.region_listed]
  regions_nodup o := hrel.regionsOf_eq o ▸ h.regions_nodup o
  block_listed b g := by rw [blocksOf_congr hrel.regions, hrel.home?_eq, h.block_listed]
  blocks_nodup g := blocksOf_congr hrel.regions g ▸ h.blocks_nodup g

theorem relabelled (h : r.Nested) (hrel : Relabelled r r') : r'.Nested := by
  -- marks and operands are not links
  have hopsOf := opsOf_congr hrel.blocks
  exact h.relinked hrel.relinked (fun o b => by rw [hopsOf, hrel.parent?_eq, h.op_listed])
    fun b => hopsOf b ▸ h.ops_nodup b

theorem insertOp (h : r.Nested) (hins : r.insertOp o point = .ok r') : r'.Nested := by
  obtain ⟨d, b, B, pre, post, hd, hnone, hB, hsplit, -, hop, hblock, -⟩ := insertOp_entries hins
  have hparent : ∀ p, r'.parent? p = if p = o then some b else r.parent? p := by
    intro p
    simp only [parent?, hop]
    by_cases hp : p = o <;> simp [hp]
  have hops : ∀ c, r'.opsOf c = if c = b then pre ++ o :: post else r.opsOf c := by
    intro c
    simp only [opsOf, hblock]
    by_cases hc : c = b <;> simp [hc]
  have holds : r.opsOf b = pre ++ post := by rw [opsOf_of hB, hsplit]
  -- the operation was in no block before
  have hout : ∀ c, o ∉ r.opsOf c := by
    intro c hmem
    rw [h.op_listed, parent?_of hd, hnone] at hmem
    cases hmem
  refine h.relinked (.insertOp hins) (fun p c => ?_) fun c => ?_
  · rw [hparent, hops]
    by_cases hp : p = o
    · subst hp
      by_cases hc : c = b
      · simp [hc]
      · simp [hc, hout c, Ne.symm hc]
    · by_cases hc : c = b
      · subst hc
        simp [hp, ← h.op_listed, holds]
      · simp [hp, hc, h.op_listed]
  · rw [hops]
    split
    · have hnodup := h.ops_nodup b
      have hmem := hout b
      rw [holds] at hnodup hmem
      exact List.nodup_middle.mpr (List.nodup_cons.mpr ⟨hmem, hnodup⟩)
    · exact h.ops_nodup c

theorem unlink (h : r.Nested) (hd : r.op? o = some d) (hun : r.unlink o = .ok r') :
    r'.Nested := by
  obtain ⟨-, hblock, -⟩ := unlink_entries hd hun
  have hops := h.opsOf_of_filtered hd hblock
  refine h.relinked (.unlink hd hun) (fun p c => ?_) fun c => ?_
  · rw [parent?_unlink hd hun, hops, List.mem_filter, h.op_listed]
    by_cases hp : p = o <;> simp [hp]
  · rw [hops]
    exact (h.ops_nodup c).filter _

theorem eraseOp (h : r.Nested) (herase : r.eraseOp o = .ok r') : r'.Nested := by
  obtain ⟨d, mid, doomed, hd, hun, rfl⟩ := eraseOp_eq_ok herase
  exact (h.unlink hd hun).relabelled (.retire mid doomed)

theorem addBlockArg (h : r.Nested) (hadd : r.addBlockArg b ty = .ok (arg, r')) : r'.Nested := by
  have hop := op?_addBlockArg hadd
  have hregion := region?_addBlockArg hadd
  have hparent : ∀ o, r'.parent? o = r.parent? o := fun o => by simp only [parent?, hop]
  have hregionsOf : ∀ o, r'.regionsOf o = r.regionsOf o := fun o => by simp only [regionsOf, hop]
  have howner : ∀ g, r'.owner? g = r.owner? g := fun g => by simp only [owner?, hregion]
  have hblocksOf : ∀ g, r'.blocksOf g = r.blocksOf g := fun g => by simp only [blocksOf, hregion]
  exact {
    op_listed := fun o c => by rw [opsOf_addBlockArg hadd, hparent, h.op_listed]
    ops_nodup := fun c => opsOf_addBlockArg hadd c ▸ h.ops_nodup c
    region_listed := fun g o => by rw [hregionsOf, howner, h.region_listed]
    regions_nodup := fun o => hregionsOf o ▸ h.regions_nodup o
    block_listed := fun c g => by rw [home?_addBlockArg hadd, hblocksOf, h.block_listed]
    blocks_nodup := fun g => hblocksOf g ▸ h.blocks_nodup g }

section MoveRegions

variable {source target : OpId} (hne : source ≠ target)
variable (hmove : r.moveRegions source target = .ok r')
include hne hmove

private theorem target_of_moveRegions : ∃ e, r.op? target = some e := by
  simp only [Routine.moveRegions, bind_eq_ok, op_eq_ok, getElem?_ops] at hmove
  obtain ⟨d, -, mid, hmid, e, he, -⟩ := hmove
  obtain ⟨-, hops, -⟩ := reparentRegions_entries hmid
  unfold op? at he
  rw [hops] at he
  have he' := op?_modifyOp r source (fun data => { data with regions := [] }) target
  rw [if_neg (Ne.symm hne)] at he'
  exact ⟨e, he'.symm.trans he⟩

private theorem regionsOf_moveRegions (p : OpId) : r'.regionsOf p =
    if p = source then []
    else if p = target then r.regionsOf target ++ r.regionsOf source
    else r.regionsOf p := by
  obtain ⟨e, he⟩ := target_of_moveRegions hne hmove
  obtain ⟨d, hd, hop, -⟩ := moveRegions_entries hne hmove
  simp only [regionsOf, hop]
  by_cases hs : p = source
  · simp [hs]
  · by_cases ht : p = target
    · simp [ht, Ne.symm hne, he, hd]
    · simp [hs, ht]

private theorem owner?_moveRegions (h : r.Nested) (g : RegionId) : r'.owner? g =
    if r.owner? g = some source then some target else r.owner? g := by
  obtain ⟨d, hd, -, hregion, -⟩ := moveRegions_entries hne hmove
  have hmem : g ∈ d.regions ↔ r.owner? g = some source := by
    rw [← h.region_listed, regionsOf_of hd]
  -- what is moved is what names the source as its owner
  simp only [owner?, hregion]
  by_cases hg : g ∈ d.regions
  · have hg' := hmem.mp hg
    unfold owner? at hg'
    obtain ⟨G, hG, hparent⟩ := Option.map_eq_some_iff.mp hg'
    simp [hg, hG, hparent]
  · have hg' : ¬ (r.region? g).map (·.parent) = some source := fun e => hg (hmem.mpr e)
    simp [hg, hg']

private theorem blocksOf_moveRegions (g : RegionId) : r'.blocksOf g = r.blocksOf g := by
  obtain ⟨d, -, -, hregion, -⟩ := moveRegions_entries hne hmove
  simp only [blocksOf, hregion]
  split
  · cases r.region? g <;> rfl
  · rfl

private theorem entry_moveRegions (p : OpId) :
    (r'.op? p).map (fun e => (e.parent, e.results)) =
      (r.op? p).map fun e => (e.parent, e.results) := by
  obtain ⟨e, he⟩ := target_of_moveRegions hne hmove
  obtain ⟨d, hd, hop, -⟩ := moveRegions_entries hne hmove
  rw [hop]
  by_cases hs : p = source
  · simp [hs, hd]
  · by_cases ht : p = target
    · simp [ht, Ne.symm hne, he]
    · simp [hs, ht]

theorem parent?_moveRegions (p : OpId) : r'.parent? p = r.parent? p := by
  have hp := congrArg (Option.bind · Prod.fst) (entry_moveRegions hne hmove p)
  simpa [parent?, Option.bind_map, Function.comp_def] using hp

theorem moveRegions (h : r.Nested) : r'.Nested := by
  obtain ⟨-, -, -, -, hblocks, -⟩ := moveRegions_entries hne hmove
  have hregionsOf := regionsOf_moveRegions hne hmove
  have hblocksOf := blocksOf_moveRegions hne hmove
  have hparent := parent?_moveRegions hne hmove
  have hopsOf := opsOf_congr hblocks
  have hhome := home?_congr hblocks
  exact {
    op_listed := fun o b => by rw [hopsOf, hparent, h.op_listed]
    ops_nodup := fun b => hopsOf b ▸ h.ops_nodup b
    region_listed := by
      intro g p
      rw [hregionsOf, owner?_moveRegions hne hmove h]
      -- the regions of the source have the target as their owner now, and no others have
      by_cases hg : r.owner? g = some source
      · by_cases hs : p = source
        · simp [hs, hg, Ne.symm hne]
        · by_cases ht : p = target
          · subst ht
            simp [hs, hg, h.region_listed]
          · simp [hs, ht, hg, h.region_listed, Ne.symm hs, Ne.symm ht]
      · by_cases hs : p = source
        · simp [hs, hg]
        · by_cases ht : p = target
          · subst ht
            simp [hs, hg, h.region_listed]
          · simp [hs, ht, hg, h.region_listed]
    regions_nodup := by
      intro p
      rw [hregionsOf]
      split
      · exact List.nodup_nil
      · split
        · refine List.nodup_append.mpr ⟨h.regions_nodup _, h.regions_nodup _, ?_⟩
          rintro g hg _ hg' rfl
          rw [h.region_listed] at hg hg'
          exact hne (Option.mem_unique hg' hg)
        · exact h.regions_nodup p
    block_listed := fun b g => by rw [hblocksOf, hhome, h.block_listed]
    blocks_nodup := fun g => hblocksOf g ▸ h.blocks_nodup g }

end MoveRegions

theorem operation (h : r.Nested) {kind : OpKind} {operands : List ValueId} {types : List Ty}
    {n : Nat} (hemit : Emit.operation point kind operands types n r = .ok (x, r')) : r'.Nested := by
  obtain ⟨-, hins⟩ := Emit.operation_eq_ok hemit
  exact (h.createOp kind operands types n).insertOp hins

theorem rebuildConstruct (h : r.Nested) {indicators : List ValueId}
    (hbuild : rebuildConstruct o indicators r = .ok (x, r')) : r'.Nested := by
  obtain ⟨d, types, r₁, r₂, e, hd, -, hemit, hmove, -, herase⟩ := rebuildConstruct_eq_ok.mp hbuild
  obtain ⟨rfl, -⟩ := Emit.operation_eq_ok hemit
  have hmoved := moveRegions (ne_freshOp hd) hmove (h.operation hemit)
  exact (hmoved.relabelled (.replaceEach ..)).eraseOp herase

end Nested

/-! ## Values -/

namespace Linked

/-- A value that comes from an operation is the operation's result, which has an entry. -/
theorem op?_of_origin (h : r.Linked) (hv : r.origin? v = some (.result o i)) :
    ∃ d, r.op? o = some d ∧ d.results[i]? = some v := by
  have hres := (h.result_listed v o i).mpr hv
  obtain ⟨d, hd, -⟩ := exists_op?_of_mem_resultsOf (List.mem_of_getElem? hres)
  exact ⟨d, hd, by rwa [resultsOf_of hd] at hres⟩

theorem createOp (h : r.Linked) (kind : OpKind) (operands : List ValueId) (types : List Ty)
    (n : Nat) : (r.createOp kind operands types n).2.Linked := by
  refine ⟨h.toNested.createOp kind operands types n, fun v o i => ?_, fun v b i => ?_⟩
  · rw [resultsOf_createOp, origin?_createOp]
    by_cases ho : o = r.freshOp
    -- the new operation was the origin of nothing
    · subst ho
      have hnone : r.origin? v ≠ some (.result r.freshOp i) := by
        intro hv
        obtain ⟨d, hd, -⟩ := h.op?_of_origin hv
        exact ne_freshOp hd rfl
      rw [if_pos rfl, getElem?_freshValues_eq_some]
      by_cases hv : v ∈ r.freshValues types.length
      · simp [hv, eq_comm]
      · simp [hv, hnone]
    · rw [if_neg ho, h.result_listed]
      by_cases hv : v ∈ r.freshValues types.length
      · simp [hv, origin?_of_fresh hv, Ne.symm ho]
      · simp [hv]
  · rw [origin?_createOp]
    by_cases hv : v ∈ r.freshValues types.length
    · have harg : ¬ (r.argsOf b)[i]? = some v := by simp [h.arg_listed, origin?_of_fresh hv]
      have hargs : (r.createOp kind operands types n).2.argsOf b = r.argsOf b := rfl
      simp [hv, hargs, harg]
    · simp only [hv, if_false]
      exact h.arg_listed v b i

/-- Results, arguments and values are what they were. -/
private theorem of_nested (h : r.Linked) (hn : r'.Nested)
    (hresults : ∀ o, r'.resultsOf o = r.resultsOf o) (hargs : ∀ b, r'.argsOf b = r.argsOf b)
    (hvalues : r'.values = r.values) : r'.Linked := by
  have horigin : ∀ v, r'.origin? v = r.origin? v := fun v => by
    simp only [origin?, value?, hvalues]
  refine ⟨hn, fun v o i => ?_, fun v b i => ?_⟩
  · rw [hresults, horigin, h.result_listed]
  · rw [hargs, horigin, h.arg_listed]

theorem relinked (h : r.Linked) (hrel : Relinked r r') (hn : r'.Nested) : r'.Linked :=
  h.of_nested hn hrel.resultsOf_eq hrel.argsOf_eq hrel.values

theorem insertOp (h : r.Linked) (hins : r.insertOp o point = .ok r') : r'.Linked :=
  h.relinked (.insertOp hins) (h.toNested.insertOp hins)

theorem relabelled (h : r.Linked) (hrel : Relabelled r r') : r'.Linked :=
  h.relinked hrel.relinked (h.toNested.relabelled hrel)

theorem appendOperands (h : r.Linked) {vs : List ValueId} (happ : r.appendOperands o vs = .ok r') :
    r'.Linked :=
  h.relabelled (.appendOperands happ)

theorem eraseOp (h : r.Linked) (herase : r.eraseOp o = .ok r') : r'.Linked :=
  h.relinked (.eraseOp herase) (h.toNested.eraseOp herase)

/-- Of an extended list, an entry is an old one, or the new one at the end. -/
private theorem getElem?_snoc {l : List ValueId} {a : ValueId} :
    (l ++ [a])[i]? = some v ↔ l[i]? = some v ∨ l.length = i ∧ a = v := by
  rw [List.getElem?_append]
  by_cases hi : i < l.length
  · have hne : l.length ≠ i := by omega
    simp [hi, hne]
  · have hzero : i - l.length = 0 ↔ l.length = i := by omega
    simp [hi, List.getElem?_singleton, hzero]

theorem addBlockArg (h : r.Linked) (hadd : r.addBlockArg b ty = .ok (arg, r')) : r'.Linked := by
  -- the new value had no origin, so it is in no list yet
  have hnone := origin?_of_addBlockArg hadd
  refine ⟨h.toNested.addBlockArg hadd, fun v o i => ?_, fun v c i => ?_⟩
  · have hresults : r'.resultsOf o = r.resultsOf o := by
      simp only [resultsOf, op?_addBlockArg hadd]
    rw [hresults, origin?_addBlockArg hadd, h.result_listed]
    by_cases hv : v = arg
    · simp [hv, hnone]
    · simp [hv]
  · rw [argsOf_addBlockArg hadd, origin?_addBlockArg hadd]
    by_cases hc : c = b
    · subst hc
      rw [if_pos rfl, getElem?_snoc, h.arg_listed]
      by_cases hv : v = arg
      · simp [hv, hnone]
      · simp [hv, Ne.symm hv]
    · rw [if_neg hc, h.arg_listed]
      by_cases hv : v = arg
      · simp [hv, hnone, Ne.symm hc]
      · simp [hv]

theorem moveRegions {source target : OpId} (hne : source ≠ target)
    (hmove : r.moveRegions source target = .ok r') (h : r.Linked) : r'.Linked := by
  obtain ⟨-, -, -, -, hblocks, hvalues, -⟩ := moveRegions_entries hne hmove
  refine h.of_nested (Nested.moveRegions hne hmove h.toNested) (fun p => ?_) (fun b => ?_) hvalues
  · have hp := congrArg (Option.elim · [] Prod.snd) (Nested.entry_moveRegions hne hmove p)
    simpa [resultsOf, Option.elim_map, Function.comp_def] using hp
  · simp only [argsOf, block?, hblocks]

theorem operation (h : r.Linked) {kind : OpKind} {operands : List ValueId} {types : List Ty}
    {n : Nat} (hemit : Emit.operation point kind operands types n r = .ok (x, r')) : r'.Linked := by
  obtain ⟨-, hins⟩ := Emit.operation_eq_ok hemit
  exact (h.createOp kind operands types n).insertOp hins

theorem rebuildConstruct (h : r.Linked) {indicators : List ValueId}
    (hbuild : rebuildConstruct o indicators r = .ok (x, r')) : r'.Linked := by
  obtain ⟨d, types, r₁, r₂, e, hd, -, hemit, hmove, -, herase⟩ := rebuildConstruct_eq_ok.mp hbuild
  obtain ⟨rfl, -⟩ := Emit.operation_eq_ok hemit
  have hmoved := moveRegions (ne_freshOp hd) hmove (h.operation hemit)
  exact (hmoved.relabelled (.replaceEach ..)).eraseOp herase

end Linked

end Routine

end BufferOwnership
