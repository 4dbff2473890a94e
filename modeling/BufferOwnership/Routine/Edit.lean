import BufferOwnership.Routine.Nesting

/-!
# Editing routines

The elementary changes of a routine. New entries go to the end of their tables, so an identifier
is never used twice. A change that needs an entry which is not there is refused with a `Fault`
and changes nothing.
-/

namespace BufferOwnership

namespace Routine

/-! ## Changing one entry -/

def modifyOp (r : Routine) (o : OpId) (f : Op → Op) : Routine :=
  { r with ops := r.ops.modify o.index f }

def modifyBlock (r : Routine) (b : BlockId) (f : Block → Block) : Routine :=
  { r with blocks := r.blocks.modify b.index f }

def modifyRegion (r : Routine) (g : RegionId) (f : Region → Region) : Routine :=
  { r with regions := r.regions.modify g.index f }

section

variable (r : Routine)
include r

/-- After a change of one operation, its entry is the changed one and all others are as before. -/
theorem getElem?_ops_modifyOp (o : OpId) (f : Op → Op) (i : Nat) :
    (r.modifyOp o f).ops[i]? = if o.index = i then r.ops[i]?.map f else r.ops[i]? :=
  Array.getElem?_modify

/-- After a change of one block, its entry is the changed one and all others are as before. -/
theorem getElem?_blocks_modifyBlock (b : BlockId) (f : Block → Block) (i : Nat) :
    (r.modifyBlock b f).blocks[i]? = if b.index = i then r.blocks[i]?.map f else r.blocks[i]? :=
  Array.getElem?_modify

/-- After a change of one region, its entry is the changed one and all others are as before. -/
theorem getElem?_regions_modifyRegion (g : RegionId) (f : Region → Region) (i : Nat) :
    (r.modifyRegion g f).regions[i]? =
      if g.index = i then r.regions[i]?.map f else r.regions[i]? :=
  Array.getElem?_modify

end

/-! ## New entries -/

/-- The identifiers that the next `count` new values get. -/
def freshValues (r : Routine) (count : Nat) : List ValueId :=
  (List.range count).map fun i => ⟨r.values.size + i⟩

/-- The identifiers that the next `count` new regions get. -/
def freshRegions (r : Routine) (count : Nat) : List RegionId :=
  (List.range count).map fun i => ⟨r.regions.size + i⟩

/-- Makes a detached operation with fresh results of these types and that many empty regions. -/
def createOp (r : Routine) (kind : OpKind) (operands : List ValueId) (resultTypes : List Ty)
    (regionCount : Nat) : OpId × Routine :=
  let o : OpId := ⟨r.ops.size⟩
  let results := resultTypes.zipIdx.map fun (ty, i) => { ty, origin := .result o i : Value }
  (o,
    { r with
      values := r.values ++ results.toArray
      regions := r.regions ++ Array.replicate regionCount { blocks := [], parent := o }
      ops := r.ops.push
        { kind
          operands
          results := r.freshValues resultTypes.length
          regions := r.freshRegions regionCount
          parent := none
          erased := false } })

def addBlockArg (r : Routine) (b : BlockId) (ty : Ty) : Except Fault (ValueId × Routine) := do
  let data ← r.block b
  let arg : ValueId := ⟨r.values.size⟩
  let grown := { r with
    values := r.values.push { ty, origin := .argument b data.args.length } }
  return (arg, grown.modifyBlock b fun data => { data with args := data.args ++ [arg] })

def addBlockArgs (r : Routine) (b : BlockId) : List Ty → Except Fault (List ValueId × Routine)
  | [] => return ([], r)
  | ty :: tys => do
    let (arg, r) ← r.addBlockArg b ty
    let (args, r) ← r.addBlockArgs b tys
    return (arg :: args, r)

/-- Adds a block without operations at the end of a region. -/
def createBlock (r : Routine) (g : RegionId) (argTypes : List Ty) :
    Except Fault (BlockId × Routine) := do
  let _ ← r.region g
  let b : BlockId := ⟨r.blocks.size⟩
  let grown := { r with blocks := r.blocks.push { args := [], ops := [], parent := g } }
  let linked := grown.modifyRegion g fun data => { data with blocks := data.blocks ++ [b] }
  let (_, r) ← linked.addBlockArgs b argTypes
  return (b, r)

/-- A routine without operations: the root, its region, and an entry block with the parameters. -/
def empty (name : String) (params : List Ty) : Routine :=
  { values := (params.zipIdx.map fun (ty, i) =>
      { ty, origin := .argument ⟨0⟩ i : Value }).toArray
    ops := #[{ kind := .routine name, operands := [], results := [], regions := [⟨0⟩]
               parent := none, erased := false }]
    blocks := #[{ args := (List.range params.length).map .mk, ops := [], parent := ⟨0⟩ }]
    regions := #[{ blocks := [⟨0⟩], parent := ⟨0⟩ }]
    root := ⟨0⟩ }

/-! ## Links -/

/-- The block and the place in its list that an insertion point means. -/
def resolvePoint (r : Routine) : InsertPoint → Except Fault (BlockId × Nat)
  | .before anchor => do
    match (← r.op anchor).parent with
    | none => .error (.detachedAnchor anchor)
    | some b =>
      match (← r.block b).ops.idxOf? anchor with
      | none => .error (.strayAnchor anchor)
      | some place => return (b, place)
  | .atEnd b => return (b, (← r.block b).ops.length)

/-- Puts a detached operation into a block. -/
def insertOp (r : Routine) (o : OpId) (point : InsertPoint) : Except Fault Routine := do
  if (← r.op o).parent.isSome then
    .error (.alreadyLinked o)
  else
    let (b, place) ← r.resolvePoint point
    let listed := r.modifyBlock b fun data => { data with ops := data.ops.insertIdx place o }
    return listed.modifyOp o fun data => { data with parent := some b }

/-- Adds operands at the end of an operation's list. -/
def appendOperands (r : Routine) (o : OpId) (operands : List ValueId) : Except Fault Routine := do
  let _ ← r.op o
  return r.modifyOp o fun data => { data with operands := data.operands ++ operands }

/-- Makes every operation that is not erased use one value in place of another. -/
def replaceAllUses (r : Routine) (old new : ValueId) : Routine :=
  { r with
    ops := r.ops.map fun data =>
      if data.erased then data
      else { data with operands := data.operands.map fun v => if v = old then new else v } }

/-- Replaces the first value of each pair by the second, pair by pair. -/
def replaceEach (r : Routine) (pairs : List (ValueId × ValueId)) : Routine :=
  pairs.foldl (fun r (old, new) => r.replaceAllUses old new) r

/-- Hands regions over to an operation, without listing them there. -/
def reparentRegions (r : Routine) (owner : OpId) : List RegionId → Except Fault Routine
  | [] => return r
  | g :: rest => do
    let _ ← r.region g
    (r.modifyRegion g fun data => { data with parent := owner }).reparentRegions owner rest

/-- Moves all regions of one operation to the end of another's list. -/
def moveRegions (r : Routine) (source target : OpId) : Except Fault Routine := do
  let moved := (← r.op source).regions
  let emptied := r.modifyOp source fun data => { data with regions := [] }
  let handedOver ← emptied.reparentRegions target moved
  let _ ← handedOver.op target
  return handedOver.modifyOp target fun data => { data with regions := data.regions ++ moved }

def unlink (r : Routine) (o : OpId) : Except Fault Routine := do
  match (← r.op o).parent with
  | none => return r
  | some b =>
    let _ ← r.block b
    let detached := r.modifyOp o fun data => { data with parent := none }
    return detached.modifyBlock b fun data =>
      { data with ops := data.ops.filter fun listed => listed != o }

def retire (r : Routine) (doomed : List OpId) : Routine :=
  { r with
    ops := r.ops.mapIdx fun i data =>
      if doomed.contains ⟨i⟩ then { data with erased := true } else data }

/-- Takes an operation out of its block, and erases it with all that is nested in it. -/
def eraseOp (r : Routine) (o : OpId) : Except Fault Routine := do
  let r ← r.unlink o
  return r.retire (← r.subtree o)

end Routine

end BufferOwnership
