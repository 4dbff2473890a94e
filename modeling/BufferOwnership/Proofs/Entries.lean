import BufferOwnership.Failure
import BufferOwnership.Routine.Emit

/-!
# Entries after an edit

What the tables of a routine hold after each elementary edit, entry by entry. Every later module
reads an edit through these equations and never opens it.

- `op?`, `block?`, `region?` and `value?` look up an entry by its identifier.
- One equation per edit and table says which entries changed and how.
-/

namespace BufferOwnership

attribute [ext] OpId BlockId RegionId ValueId

namespace Routine

variable {r r' : Routine} {o : OpId} {b : BlockId} {v : ValueId} {d : Op} {point : InsertPoint}
variable {α : Type}

/-! ## Looking up -/

def op? (r : Routine) (o : OpId) : Option Op := r.ops[o.index]?

def block? (r : Routine) (b : BlockId) : Option Block := r.blocks[b.index]?

def region? (r : Routine) (g : RegionId) : Option Region := r.regions[g.index]?

def value? (r : Routine) (v : ValueId) : Option Value := r.values[v.index]?

@[simp] theorem getElem?_ops (r : Routine) (o : OpId) : r.ops[o.index]? = r.op? o := rfl

@[simp] theorem getElem?_blocks (r : Routine) (b : BlockId) : r.blocks[b.index]? = r.block? b := rfl

@[simp] theorem getElem?_regions (r : Routine) (g : RegionId) :
    r.regions[g.index]? = r.region? g := rfl

@[simp] theorem getElem?_values (r : Routine) (v : ValueId) : r.values[v.index]? = r.value? v := rfl

/-- An operation with an entry is within the table. -/
theorem lt_of_op? (h : r.op? o = some d) : o.index < r.ops.size :=
  (Array.getElem?_eq_some_iff.mp h).1

theorem lt_of_block? {B : Block} (h : r.block? b = some B) : b.index < r.blocks.size :=
  (Array.getElem?_eq_some_iff.mp h).1

theorem lt_of_value? {V : Value} (h : r.value? v = some V) : v.index < r.values.size :=
  (Array.getElem?_eq_some_iff.mp h).1

theorem exists_op? (h : o.index < r.ops.size) : ∃ d, r.op? o = some d :=
  ⟨r.ops[o.index], Array.getElem?_eq_getElem h⟩

theorem exists_value? (h : v.index < r.values.size) : ∃ V, r.value? v = some V :=
  ⟨r.values[v.index], Array.getElem?_eq_getElem h⟩

/-! ## Reading an entry

What an entry holds, as total functions: lists are empty, and all else is none, where there is no
entry. -/

/-- The block that lists an operation. -/
def parent? (r : Routine) (o : OpId) : Option BlockId := (r.op? o).bind (·.parent)

def kind? (r : Routine) (o : OpId) : Option OpKind := (r.op? o).map (·.kind)

def operandsOf (r : Routine) (o : OpId) : List ValueId := (r.op? o).elim [] (·.operands)

def resultsOf (r : Routine) (o : OpId) : List ValueId := (r.op? o).elim [] (·.results)

def regionsOf (r : Routine) (o : OpId) : List RegionId := (r.op? o).elim [] (·.regions)

def isErased (r : Routine) (o : OpId) : Bool := (r.op? o).any (·.erased)

def opsOf (r : Routine) (b : BlockId) : List OpId := (r.block? b).elim [] (·.ops)

def argsOf (r : Routine) (b : BlockId) : List ValueId := (r.block? b).elim [] (·.args)

/-- The region that lists a block. -/
def home? (r : Routine) (b : BlockId) : Option RegionId := (r.block? b).map (·.parent)

def blocksOf (r : Routine) (g : RegionId) : List BlockId := (r.region? g).elim [] (·.blocks)

/-- The operation that lists a region. -/
def owner? (r : Routine) (g : RegionId) : Option OpId := (r.region? g).map (·.parent)

def ty? (r : Routine) (v : ValueId) : Option Ty := (r.value? v).map (·.ty)

def origin? (r : Routine) (v : ValueId) : Option ValueOrigin := (r.value? v).map (·.origin)

def holdsBuffer (r : Routine) (v : ValueId) : Bool := (r.ty? v).any Ty.isBuffer

theorem opsOf_congr (h : r'.blocks = r.blocks) (b : BlockId) : r'.opsOf b = r.opsOf b := by
  simp only [opsOf, block?, h]

theorem home?_congr (h : r'.blocks = r.blocks) (b : BlockId) : r'.home? b = r.home? b := by
  simp only [home?, block?, h]

theorem blocksOf_congr (h : r'.regions = r.regions) (g : RegionId) :
    r'.blocksOf g = r.blocksOf g := by
  simp only [blocksOf, region?, h]

theorem owner?_congr (h : r'.regions = r.regions) (g : RegionId) : r'.owner? g = r.owner? g := by
  simp only [owner?, region?, h]

section Reading

variable {g : RegionId} {B : Block} {G : Region} {V : Value}

section

variable (h : r.op? o = some d)
include h

theorem parent?_of : r.parent? o = d.parent := by simp [parent?, h]

theorem kind?_of : r.kind? o = some d.kind := by simp [kind?, h]

theorem operandsOf_of : r.operandsOf o = d.operands := by simp [operandsOf, h]

theorem resultsOf_of : r.resultsOf o = d.results := by simp [resultsOf, h]

theorem regionsOf_of : r.regionsOf o = d.regions := by simp [regionsOf, h]

theorem isErased_of : r.isErased o = d.erased := by simp [isErased, h]

end

theorem opsOf_of (h : r.block? b = some B) : r.opsOf b = B.ops := by simp [opsOf, h]

theorem argsOf_of (h : r.block? b = some B) : r.argsOf b = B.args := by simp [argsOf, h]

theorem home?_of (h : r.block? b = some B) : r.home? b = some B.parent := by simp [home?, h]

theorem blocksOf_of (h : r.region? g = some G) : r.blocksOf g = G.blocks := by simp [blocksOf, h]

theorem owner?_of (h : r.region? g = some G) : r.owner? g = some G.parent := by simp [owner?, h]

theorem ty?_of (h : r.value? v = some V) : r.ty? v = some V.ty := by simp [ty?, h]

theorem origin?_of (h : r.value? v = some V) : r.origin? v = some V.origin := by simp [origin?, h]

/-- An element of a list of an entry that may be missing. -/
theorem mem_elim_nil {β : Type} {entry : Option α} {list : α → List β} {x : β} :
    x ∈ entry.elim [] list ↔ ∃ a, entry = some a ∧ x ∈ list a := by
  cases entry <;> simp

/-- What has a parent, or an operand, a result or a region, has an entry. -/
theorem exists_op?_of_parent? (h : r.parent? o = some b) :
    ∃ d, r.op? o = some d ∧ d.parent = some b :=
  Option.bind_eq_some_iff.mp h

theorem exists_op?_of_kind? {k : OpKind} (h : r.kind? o = some k) :
    ∃ d, r.op? o = some d ∧ d.kind = k :=
  Option.map_eq_some_iff.mp h

theorem exists_op?_of_mem_operandsOf (h : v ∈ r.operandsOf o) :
    ∃ d, r.op? o = some d ∧ v ∈ d.operands :=
  mem_elim_nil.mp h

theorem exists_op?_of_mem_resultsOf (h : v ∈ r.resultsOf o) :
    ∃ d, r.op? o = some d ∧ v ∈ d.results :=
  mem_elim_nil.mp h

theorem exists_op?_of_mem_regionsOf (h : g ∈ r.regionsOf o) :
    ∃ d, r.op? o = some d ∧ g ∈ d.regions :=
  mem_elim_nil.mp h

theorem exists_block?_of_mem_opsOf (h : o ∈ r.opsOf b) : ∃ B, r.block? b = some B ∧ o ∈ B.ops :=
  mem_elim_nil.mp h

end Reading

/-! ## Changing one entry -/

section

variable (r o) (f : Op → Op)
include r o f

theorem op?_modifyOp (p : OpId) :
    (r.modifyOp o f).op? p = if p = o then (r.op? p).map f else r.op? p := by
  have hp : o.index = p.index ↔ p = o := eq_comm.trans OpId.ext_iff.symm
  simp only [op?, getElem?_ops_modifyOp, hp]

@[simp] theorem block?_modifyOp (b : BlockId) : (r.modifyOp o f).block? b = r.block? b := rfl

@[simp] theorem region?_modifyOp (g : RegionId) : (r.modifyOp o f).region? g = r.region? g := rfl

end

section

variable (r b) (f : Block → Block)
include r b f

theorem block?_modifyBlock (c : BlockId) :
    (r.modifyBlock b f).block? c = if c = b then (r.block? c).map f else r.block? c := by
  have hc : b.index = c.index ↔ c = b := eq_comm.trans BlockId.ext_iff.symm
  simp only [block?, getElem?_blocks_modifyBlock, hc]

@[simp] theorem op?_modifyBlock (o : OpId) : (r.modifyBlock b f).op? o = r.op? o := rfl

@[simp] theorem value?_modifyBlock (v : ValueId) : (r.modifyBlock b f).value? v = r.value? v := rfl

end

section

variable (r) (g : RegionId) (f : Region → Region)
include r g f

theorem region?_modifyRegion (k : RegionId) :
    (r.modifyRegion g f).region? k = if k = g then (r.region? k).map f else r.region? k := by
  have hk : g.index = k.index ↔ k = g := eq_comm.trans RegionId.ext_iff.symm
  simp only [region?, getElem?_regions_modifyRegion, hk]

@[simp] theorem block?_modifyRegion (b : BlockId) :
    (r.modifyRegion g f).block? b = r.block? b := rfl

end

/-! ## New entries -/

/-- The identifier that the next new operation gets. -/
def freshOp (r : Routine) : OpId := ⟨r.ops.size⟩

theorem op?_freshOp (r : Routine) : r.op? r.freshOp = none := by simp [op?, freshOp]

theorem ne_freshOp (h : r.op? o = some d) : o ≠ r.freshOp := by
  rintro rfl
  simp [op?_freshOp] at h

section CreateOp

variable (r) (kind : OpKind) (operands : List ValueId) (types : List Ty) (n : Nat)

@[simp] theorem root_createOp : (r.createOp kind operands types n).2.root = r.root := rfl

@[simp] theorem size_ops_createOp :
    (r.createOp kind operands types n).2.ops.size = r.ops.size + 1 := by
  simp [createOp]

@[simp] theorem size_values_createOp :
    (r.createOp kind operands types n).2.values.size = r.values.size + types.length := by
  simp [createOp]

theorem op?_createOp (p : OpId) : (r.createOp kind operands types n).2.op? p =
      if p = r.freshOp then
        some { kind, operands, results := r.freshValues types.length
               regions := r.freshRegions n, parent := none, erased := false }
      else r.op? p := by
  have hp : p = r.freshOp ↔ p.index = r.ops.size :=
    ⟨fun h => h ▸ rfl, fun h => OpId.ext h⟩
  unfold op? createOp
  simp only [Array.getElem?_push, hp]

@[simp] theorem block?_createOp (b : BlockId) :
    (r.createOp kind operands types n).2.block? b = r.block? b := rfl

theorem region?_createOp (g : RegionId) : (r.createOp kind operands types n).2.region? g =
      if g.index < r.regions.size then r.region? g
      else if g.index < r.regions.size + n then some { blocks := [], parent := r.freshOp }
      else none := by
  unfold region? createOp
  simp only [Array.getElem?_append, Array.getElem?_replicate]
  by_cases h : g.index < r.regions.size
  · simp only [h, if_true]
  -- the new regions come after the old ones, and are empty
  · have hn : g.index - r.regions.size < n ↔ g.index < r.regions.size + n := by omega
    simp only [h, if_false, hn, freshOp]

theorem value?_createOp (v : ValueId) : (r.createOp kind operands types n).2.value? v =
      if v.index < r.values.size then r.value? v
      else types[v.index - r.values.size]?.map fun ty =>
        { ty, origin := .result r.freshOp (v.index - r.values.size) } := by
  unfold value? createOp
  simp only [Array.getElem?_append]
  by_cases h : v.index < r.values.size
  · simp only [h, if_true]
  -- the results come after the old values, numbered from zero
  · simp only [h, if_false, freshOp, List.getElem?_toArray, List.getElem?_map,
      List.getElem?_zipIdx, Option.map_map, Function.comp_def, Nat.zero_add]

end CreateOp

theorem getElem?_freshValues (r : Routine) (n i : Nat) :
    (r.freshValues n)[i]? = if i < n then some ⟨r.values.size + i⟩ else none := by
  simp only [freshValues, List.getElem?_map]
  by_cases h : i < n <;> simp [h]

theorem mem_freshValues {n : Nat} :
    v ∈ r.freshValues n ↔ r.values.size ≤ v.index ∧ v.index < r.values.size + n := by
  simp only [freshValues, List.mem_map, List.mem_range]
  constructor
  · rintro ⟨i, hi, rfl⟩
    simp [hi]
  · rintro ⟨hle, hlt⟩
    exact ⟨v.index - r.values.size, by omega, ValueId.ext (by simp; omega)⟩

@[simp] theorem length_freshValues (r : Routine) (n : Nat) : (r.freshValues n).length = n := by
  simp [freshValues]

theorem mem_freshRegions {g : RegionId} {n : Nat} :
    g ∈ r.freshRegions n ↔ r.regions.size ≤ g.index ∧ g.index < r.regions.size + n := by
  simp only [freshRegions, List.mem_map, List.mem_range]
  constructor
  · rintro ⟨i, hi, rfl⟩
    simp [hi]
  · rintro ⟨hle, hlt⟩
    exact ⟨g.index - r.regions.size, by omega, RegionId.ext (by simp; omega)⟩

@[simp] theorem freshRegions_zero (r : Routine) : r.freshRegions 0 = [] := rfl

/-! ## Arguments and operands -/

/-- A new argument is a new value at the end of the block's list, and nothing else changes. -/
theorem addBlockArg_eq_ok {ty : Ty} {arg : ValueId} (h : r.addBlockArg b ty = .ok (arg, r')) :
    ∃ B, r.block? b = some B ∧ arg = ⟨r.values.size⟩ ∧
      r' = Routine.modifyBlock
        { r with values := r.values.push { ty, origin := .argument b B.args.length } } b
        fun data => { data with args := data.args ++ [arg] } := by
  simp only [addBlockArg, bind_eq_ok, block_eq_ok, getElem?_blocks] at h
  obtain ⟨B, hB, hr⟩ := h
  cases hr
  exact ⟨B, hB, rfl, rfl⟩

section AddBlockArg

variable {ty : Ty} {arg : ValueId}
  (h : r.addBlockArg b ty = .ok (arg, r'))
include h

theorem addBlockArg_arg : arg = ⟨r.values.size⟩ := by
  obtain ⟨B, -, ha, -⟩ := addBlockArg_eq_ok h
  exact ha

theorem op?_addBlockArg (o : OpId) : r'.op? o = r.op? o := by
  obtain ⟨B, -, -, rfl⟩ := addBlockArg_eq_ok h
  rfl

theorem region?_addBlockArg (g : RegionId) : r'.region? g = r.region? g := by
  obtain ⟨B, -, -, rfl⟩ := addBlockArg_eq_ok h
  rfl

theorem block?_addBlockArg (c : BlockId) : r'.block? c =
      if c = b then (r.block? c).map fun B => { B with args := B.args ++ [arg] }
      else r.block? c := by
  obtain ⟨B, -, -, rfl⟩ := addBlockArg_eq_ok h
  rw [block?_modifyBlock]
  rfl

theorem value?_addBlockArg (v : ValueId) : r'.value? v =
      if v = arg then some { ty, origin := .argument b (r.argsOf b).length } else r.value? v := by
  obtain ⟨B, hB, ha, rfl⟩ := addBlockArg_eq_ok h
  have hv : v = arg ↔ v.index = r.values.size :=
    ⟨fun e => by rw [e, ha], fun e => ha ▸ ValueId.ext e⟩
  rw [value?_modifyBlock, argsOf_of hB]
  unfold value?
  simp only [Array.getElem?_push, hv]

theorem size_values_addBlockArg : r'.values.size = r.values.size + 1 := by
  obtain ⟨B, -, -, rfl⟩ := addBlockArg_eq_ok h
  simp [modifyBlock]

end AddBlockArg

theorem appendOperands_eq_ok {vs : List ValueId} (h : r.appendOperands o vs = .ok r') :
    ∃ d, r.op? o = some d ∧
      r' = r.modifyOp o fun data => { data with operands := data.operands ++ vs } := by
  simp only [appendOperands, bind_eq_ok, op_eq_ok, getElem?_ops] at h
  obtain ⟨d, hd, hr⟩ := h
  cases hr
  exact ⟨d, hd, rfl⟩

/-! ## Linking -/

/-- Where an insertion point splits the list of a block. -/
def Splits (r : Routine) (b : BlockId) (pre post : List OpId) : InsertPoint → Prop
  | .before anchor => r.parent? anchor = some b ∧ anchor ∉ pre ∧ ∃ rest, post = anchor :: rest
  | .atEnd c => c = b ∧ post = []

theorem insertIdx_length_append (x : α) (pre post : List α) :
    (pre ++ post).insertIdx pre.length x = pre ++ x :: post := by
  induction pre with
  | nil => simp
  | cons a pre ih => simpa using ih

theorem idxOf?_append_cons {pre post : List OpId} (h : o ∉ pre) :
    (pre ++ o :: post).idxOf? o = some pre.length := by
  rw [List.idxOf?_eq_some_iff]
  refine ⟨by simp, by simp, fun j hj he => h ?_⟩
  rw [List.getElem_append_left hj] at he
  exact he ▸ List.getElem_mem hj

/-- A place that is found lies inside its block's list. -/
theorem resolvePoint_eq_ok {place : Nat} (h : r.resolvePoint point = .ok (b, place)) :
    ∃ B pre post, r.block? b = some B ∧ B.ops = pre ++ post ∧ place = pre.length ∧
      r.Splits b pre post point := by
  cases point with
  | before anchor =>
    simp only [resolvePoint, bind_eq_ok, op_eq_ok, getElem?_ops] at h
    obtain ⟨d, hd, h⟩ := h
    split at h
    · cases h
    · rename_i c hc
      simp only [bind_eq_ok, block_eq_ok, getElem?_blocks] at h
      obtain ⟨B, hB, h⟩ := h
      split at h
      · cases h
      · rename_i i hi
        cases h
        obtain ⟨hlt, hget, hmin⟩ := List.idxOf?_eq_some_iff.mp hi
        -- the anchor is looked for from the front, so it does not stand before the place
        refine ⟨B, B.ops.take place, B.ops.drop place, hB, (List.take_append_drop ..).symm, ?_, ?_⟩
        · simp; omega
        · refine ⟨by rw [parent?_of hd, hc], ?_, B.ops.drop (place + 1), ?_⟩
          · intro hmem
            obtain ⟨j, hj, hje⟩ := List.mem_take_iff_getElem.mp hmem
            exact hmin j (by omega) hje
          · rw [List.drop_eq_getElem_cons hlt, hget]
  | atEnd c =>
    simp only [resolvePoint, bind_eq_ok, block_eq_ok, getElem?_blocks] at h
    obtain ⟨B, hB, h⟩ := h
    cases h
    exact ⟨B, B.ops, [], hB, by simp, rfl, rfl, rfl⟩

/-- An insertion links the operation at the place that the point names. -/
theorem insertOp_eq_ok (h : r.insertOp o point = .ok r') :
    ∃ d b B pre post, r.op? o = some d ∧ d.parent = none ∧ r.block? b = some B ∧
      B.ops = pre ++ post ∧ r.Splits b pre post point ∧
      r' = (r.modifyBlock b fun data =>
        { data with ops := data.ops.insertIdx pre.length o }).modifyOp
        o fun data => { data with parent := some b } := by
  simp only [insertOp, bind_eq_ok, op_eq_ok, getElem?_ops] at h
  obtain ⟨d, hd, h⟩ := h
  split at h
  · cases h
  · rename_i hnone
    obtain ⟨⟨b, place⟩, hpoint, h⟩ := bind_eq_ok.mp h
    obtain ⟨B, pre, post, hB, hsplit, rfl, hpost⟩ := resolvePoint_eq_ok hpoint
    cases h
    exact ⟨d, b, B, pre, post, hd, by simpa using hnone, hB, hsplit, hpost, rfl⟩

/-- What an insertion does to the tables of operations and blocks. -/
theorem insertOp_entries (h : r.insertOp o point = .ok r') :
    ∃ d b B pre post, r.op? o = some d ∧ d.parent = none ∧ r.block? b = some B ∧
      B.ops = pre ++ post ∧ r.Splits b pre post point ∧
      (∀ p, r'.op? p = if p = o then some { d with parent := some b } else r.op? p) ∧
      (∀ c, r'.block? c = if c = b then some { B with ops := pre ++ o :: post } else r.block? c) ∧
      r'.regions = r.regions ∧ r'.values = r.values ∧ r'.root = r.root ∧
      r'.ops.size = r.ops.size ∧ r'.blocks.size = r.blocks.size := by
  obtain ⟨d, b, B, pre, post, hd, hnone, hB, hsplit, hpost, rfl⟩ := insertOp_eq_ok h
  refine ⟨d, b, B, pre, post, hd, hnone, hB, hsplit, hpost, ?_, ?_, rfl, rfl, rfl, ?_, ?_⟩
  · intro p
    rw [op?_modifyOp, op?_modifyBlock]
    by_cases hp : p = o
    · simp [hp, hd]
    · simp [hp]
  · intro c
    rw [block?_modifyOp, block?_modifyBlock]
    by_cases hc : c = b
    · subst hc
      simp [hB, hsplit, insertIdx_length_append]
    · simp [hc]
  · simp [modifyOp, modifyBlock]
  · simp [modifyOp, modifyBlock]

/-! ## Replacing uses -/

/-- The first replacement that applies to a value decides; the pairs come one after another. -/
def substitute (pairs : List (ValueId × ValueId)) (v : ValueId) : ValueId :=
  pairs.foldl (fun v (old, new) => if v = old then new else v) v

theorem substitute_cons (old new : ValueId) (pairs : List (ValueId × ValueId)) (v : ValueId) :
    substitute ((old, new) :: pairs) v = substitute pairs (if v = old then new else v) := rfl

theorem op?_replaceAllUses (r : Routine) (old new : ValueId) (o : OpId) :
    (r.replaceAllUses old new).op? o = (r.op? o).map fun d =>
      if d.erased then d
      else { d with operands := d.operands.map fun v => if v = old then new else v } := by
  unfold op? replaceAllUses
  simp only [Array.getElem?_map]

theorem op?_replaceEach (r : Routine) (pairs : List (ValueId × ValueId)) (o : OpId) :
    (r.replaceEach pairs).op? o = (r.op? o).map fun d =>
      if d.erased then d else { d with operands := d.operands.map (substitute pairs) } := by
  induction pairs generalizing r with
  | nil =>
    cases hd : r.op? o with
    | none => simp [replaceEach, hd]
    | some d =>
      have hid : substitute [] = id := rfl
      simp [replaceEach, hd, hid]
  | cons pair pairs ih =>
    obtain ⟨old, new⟩ := pair
    have hstep : r.replaceEach ((old, new) :: pairs) =
        (r.replaceAllUses old new).replaceEach pairs := rfl
    -- an erased operation is passed over by every pair
    rw [hstep, ih, op?_replaceAllUses, Option.map_map]
    congr 1
    funext d
    by_cases he : d.erased = true
    · simp [he]
    · simp [he, Function.comp_def, substitute_cons]

theorem replaceEach_tables (r : Routine) (pairs : List (ValueId × ValueId)) :
    (r.replaceEach pairs).values = r.values ∧ (r.replaceEach pairs).blocks = r.blocks ∧
      (r.replaceEach pairs).regions = r.regions ∧ (r.replaceEach pairs).root = r.root ∧
      (r.replaceEach pairs).ops.size = r.ops.size := by
  induction pairs generalizing r with
  | nil => exact ⟨rfl, rfl, rfl, rfl, rfl⟩
  | cons pair pairs ih =>
    obtain ⟨hv, hb, hg, hroot, hsize⟩ := ih (r.replaceAllUses pair.1 pair.2)
    exact ⟨hv, hb, hg, hroot, by rw [show r.replaceEach (pair :: pairs) =
      (r.replaceAllUses pair.1 pair.2).replaceEach pairs from rfl, hsize]; simp [replaceAllUses]⟩

/-! ## Moving regions -/

theorem reparentRegions_entries {owner : OpId} {moved : List RegionId}
    (h : r.reparentRegions owner moved = .ok r') :
    (∀ g, r'.region? g = if g ∈ moved then (r.region? g).map ({ · with parent := owner })
      else r.region? g) ∧
      r'.ops = r.ops ∧ r'.blocks = r.blocks ∧ r'.values = r.values ∧ r'.root = r.root ∧
      r'.regions.size = r.regions.size := by
  induction moved generalizing r with
  | nil =>
    cases h
    simp
  | cons k rest ih =>
    simp only [reparentRegions, bind_eq_ok, region_eq_ok, getElem?_regions] at h
    obtain ⟨K, hK, h⟩ := h
    obtain ⟨hg, hops, hblocks, hvalues, hroot, hsize⟩ := ih h
    refine ⟨?_, hops, hblocks, hvalues, hroot, by rw [hsize]; simp [modifyRegion]⟩
    intro g
    rw [hg, region?_modifyRegion]
    -- a region that is listed again later gets the same owner again
    by_cases hk : g = k
    · subst hk
      by_cases hrest : g ∈ rest
      · simp [hrest, hK]
      · simp [hrest]
    · simp [hk]

/-- Moving regions empties one list, extends another and renames the owner of what was moved. -/
theorem moveRegions_entries {source target : OpId} (hne : source ≠ target)
    (h : r.moveRegions source target = .ok r') :
    ∃ d, r.op? source = some d ∧
      (∀ p, r'.op? p = if p = source then some { d with regions := [] }
        else if p = target then (r.op? p).map fun e => { e with regions := e.regions ++ d.regions }
        else r.op? p) ∧
      (∀ g, r'.region? g = if g ∈ d.regions then (r.region? g).map ({ · with parent := target })
        else r.region? g) ∧
      r'.blocks = r.blocks ∧ r'.values = r.values ∧ r'.root = r.root ∧
      r'.ops.size = r.ops.size ∧ r'.regions.size = r.regions.size := by
  simp only [moveRegions, bind_eq_ok, op_eq_ok, getElem?_ops] at h
  obtain ⟨d, hd, handed, hhand, e, he, h⟩ := h
  cases h
  obtain ⟨hg, hops, hblocks, hvalues, hroot, hsize⟩ := reparentRegions_entries hhand
  -- the source has lost its list before the regions get their new owner
  have hop : ∀ p,
      handed.op? p = (r.modifyOp source fun data => { data with regions := [] }).op? p := by
    intro p
    unfold op?
    rw [hops]
  refine ⟨d, hd, ?_, ?_, hblocks, hvalues, hroot, ?_, ?_⟩
  · intro p
    rw [op?_modifyOp, hop, op?_modifyOp]
    by_cases hs : p = source
    · subst hs
      simp [hne, hd]
    · by_cases ht : p = target
      · simp [ht, Ne.symm hne]
      · simp [hs, ht]
  · intro g
    rw [region?_modifyOp, hg]
    rfl
  · simp [modifyOp, hops]
  · simp [modifyOp, hsize]

/-! ## Erasing -/

theorem op?_retire (r : Routine) (doomed : List OpId) (o : OpId) : (r.retire doomed).op? o =
      (r.op? o).map fun d => if o ∈ doomed then { d with erased := true } else d := by
  unfold op? retire
  simp only [Array.getElem?_mapIdx, List.contains_eq_mem, decide_eq_true_eq]

theorem unlink_entries (hd : r.op? o = some d) (h : r.unlink o = .ok r') :
    (∀ p, r'.op? p = if p = o then some { d with parent := none } else r.op? p) ∧
      (∀ c, r'.block? c = if d.parent = some c
        then (r.block? c).map fun B => { B with ops := B.ops.filter fun p => p != o }
        else r.block? c) ∧
      r'.regions = r.regions ∧ r'.values = r.values ∧ r'.root = r.root ∧
      r'.ops.size = r.ops.size ∧ r'.blocks.size = r.blocks.size := by
  simp only [unlink, bind_eq_ok, op_eq_ok, getElem?_ops, hd, Option.some.injEq] at h
  obtain ⟨_, rfl, h⟩ := h
  -- what stands in no block is left as it is
  split at h
  · rename_i hp
    cases h
    refine ⟨?_, ?_, rfl, rfl, rfl, rfl, rfl⟩
    · intro p
      by_cases hpo : p = o
      · subst hpo
        simp [hd, ← hp]
      · simp [hpo]
    · simp [hp]
  · rename_i b hp
    simp only [bind_eq_ok, block_eq_ok, getElem?_blocks] at h
    obtain ⟨B, hB, h⟩ := h
    cases h
    refine ⟨?_, ?_, rfl, rfl, rfl, ?_, ?_⟩
    · intro p
      rw [op?_modifyBlock, op?_modifyOp]
      by_cases hpo : p = o
      · simp [hpo, hd]
      · simp [hpo]
    · intro c
      rw [block?_modifyBlock, block?_modifyOp, hp]
      by_cases hc : c = b
      · simp [hc]
      · simp [hc, Ne.symm hc]
    · simp [modifyOp, modifyBlock]
    · simp [modifyOp, modifyBlock]

/-- Erasing makes no operations. -/
theorem op?_eraseOp_of_none {x : OpId} (h : r.eraseOp o = .ok r')
    (hx : r.op? x = none) : r'.op? x = none := by
  obtain ⟨mid, hunlink, h⟩ := bind_eq_ok.mp h
  obtain ⟨doomed, -, h⟩ := bind_eq_ok.mp h
  cases h
  obtain ⟨d, hd, -⟩ := bind_eq_ok.mp hunlink
  obtain ⟨hop, -⟩ := unlink_entries (op_eq_ok.mp hd) hunlink
  have hne : x ≠ o := by
    rintro rfl
    cases hx.symm.trans (op_eq_ok.mp hd)
  rw [op?_retire, hop, if_neg hne, hx]
  rfl

/-- Nothing is nested in an operation without regions. -/
theorem subtree_leaf (hd : r.op? o = some d) (hleaf : d.regions = []) : r.subtree o = .ok [o] := by
  have hop : r.op o = .ok d := op_eq_ok.mpr hd
  simp [subtree, depthBound, subtreeWithin, innerOps, innerBlocks, hop, hleaf, bind,
    Except.bind, pure, Except.pure]

/-- Erasing an operation without regions takes it out of its block and marks it. -/
theorem eraseOp_leaf_entries (hd : r.op? o = some d)
    (hleaf : d.regions = []) (h : r.eraseOp o = .ok r') :
    (∀ p, r'.op? p = if p = o then some { d with parent := none, erased := true }
        else r.op? p) ∧
      (∀ c, r'.block? c = if d.parent = some c
        then (r.block? c).map fun B => { B with ops := B.ops.filter fun p => p != o }
        else r.block? c) ∧
      r'.regions = r.regions ∧ r'.values = r.values ∧ r'.root = r.root ∧
      r'.ops.size = r.ops.size ∧ r'.blocks.size = r.blocks.size := by
  obtain ⟨mid, hunlink, h⟩ := bind_eq_ok.mp h
  obtain ⟨hop, hblock, hregions, hvalues, hroot, hsize, hbsize⟩ := unlink_entries hd hunlink
  have hmid : mid.op? o = some { d with parent := none } := by simp [hop]
  -- nothing is nested in it, so it is the only one to be marked
  rw [subtree_leaf hmid hleaf] at h
  cases h
  refine ⟨?_, hblock, hregions, hvalues, hroot, ?_, hbsize⟩
  · intro p
    rw [op?_retire, hop]
    by_cases hp : p = o <;> simp [hp]
  · simp [retire, hsize]

end Routine

end BufferOwnership
