import BufferOwnership.Routine.Edit

/-!
# Emitting operations

An `Edit` is a change of a routine that gives an answer. The edits here create an operation and
put it at an insertion point at once; those for operations with bodies create the blocks as well.
-/

namespace BufferOwnership

/-- A change of a routine with an answer, refused with a fault if it cannot be made. -/
abbrev Edit := StateT Routine (Except Fault)

namespace Edit

/-- A query as an edit that changes nothing. -/
def ask {α : Type} (query : Routine → Except Fault α) : Edit α := fun r => do
  return (← query r, r)

/-- A change without an answer as an edit. -/
def change (f : Routine → Except Fault Routine) : Edit Unit := fun r => do
  return ((), ← f r)

end Edit

namespace Emit

/-- Creates an operation and inserts it. -/
def operation (point : InsertPoint) (kind : OpKind) (operands : List ValueId)
    (resultTypes : List Ty) (regionCount : Nat) : Edit OpId := fun r => do
  let (o, r) := r.createOp kind operands resultTypes regionCount
  return (o, ← r.insertOp o point)

/-- Creates and inserts an operation with one result, and answers with that result. -/
def single (point : InsertPoint) (kind : OpKind) (operands : List ValueId) (ty : Ty) :
    Edit ValueId := fun r => do
  let (_, after) ← operation point kind operands [ty] 0 r
  return (⟨r.values.size⟩, after)

/-! ## Memory -/

def alloc (point : InsertPoint) (ty : Ty) : Edit ValueId := single point .alloc [] ty

def dealloc (point : InsertPoint) (buffer : ValueId) : Edit OpId :=
  operation point .dealloc [buffer] [] 0

/-- Frees a buffer and allocates another in its place. -/
def realloc (point : InsertPoint) (buffer : ValueId) (ty : Ty) : Edit ValueId :=
  single point .realloc [buffer] ty

/-! ## Operations of no special meaning -/

/-- An operation with declared effects. -/
def generic (point : InsertPoint) (name : String) (operands : List ValueId)
    (resultTypes : List Ty) (effects : List EffectSpec) : Edit OpId :=
  operation point (.generic name effects) operands resultTypes 0

def constant (point : InsertPoint) (elem : ElemType) : Edit ValueId :=
  single point (.generic "constant" []) [] (.scalar elem)

/-- Adds a block without arguments to each of some regions. -/
def bareBlocks : List RegionId → Edit (List BlockId)
  | [] => return []
  | g :: rest => do
    let b ← fun r => r.createBlock g []
    return b :: (← bareBlocks rest)

/-- An operation without declared effects that has regions of one block each. -/
def enclosing (point : InsertPoint) (name : String) (operands : List ValueId)
    (resultTypes : List Ty) (regionCount : Nat) : Edit (OpId × List BlockId) := do
  let o ← operation point (.generic name []) operands resultTypes regionCount
  let data ← Edit.ask (·.op o)
  return (o, ← bareBlocks data.regions)

/-! ## Ownership -/

/-- Makes the indicator of a fresh buffer. -/
def own (point : InsertPoint) (buffer : ValueId) : Edit ValueId :=
  single point .own [buffer] .ownership

/-- Turns owned indicators into one indicator for each retained value. -/
def retain (point : InsertPoint) (retained owned : List ValueId) : Edit OpId :=
  operation point (.retain retained.length) (retained ++ owned)
    (retained.map fun _ => .ownership) 0

/-- Makes an indicator that owns nothing. -/
def null (point : InsertPoint) : Edit ValueId := single point .null [] .ownership

/-! ## Terminators -/

/-- Hands values to the enclosing construct. -/
def yield (point : InsertPoint) (values : List ValueId) : Edit OpId :=
  operation point .yield values [] 0

/-- Leaves the routine with values. -/
def ret (point : InsertPoint) (values : List ValueId) : Edit OpId :=
  operation point .ret values [] 0

/-- Decides whether a loop goes on, and forwards values either way. -/
def condition (point : InsertPoint) (test : ValueId) (forwarded : List ValueId) : Edit OpId :=
  operation point .condition (test :: forwarded) [] 0

/-! ## Constructs -/

/-- A conditional and its blocks. -/
structure Conditional where
  op : OpId
  thenBlock : BlockId
  elseBlock? : Option BlockId

/-- A counted loop, its block, its counter and the values that it carries. -/
structure ForLoop where
  op : OpId
  body : BlockId
  counter : ValueId
  carried : List ValueId

/-- A loop with a test, the block that tests and the block that is repeated. -/
structure WhileLoop where
  op : OpId
  before : BlockId
  after : BlockId

def regionAt (o : OpId) (index : Nat) : Edit RegionId := do
  let data ← Edit.ask (·.op o)
  match data.regions[index]? with
  | some g => return g
  | none => throw (.noRegion o)

/-- A conditional. Its second region gets a block only if there is an alternative. -/
def conditional (point : InsertPoint) (test : ValueId) (resultTypes : List Ty)
    (withElse : Bool) : Edit Conditional := do
  let o ← operation point .conditional [test] resultTypes 2
  let thenRegion ← regionAt o 0
  let elseRegion ← regionAt o 1
  let thenBlock ← fun r => r.createBlock thenRegion []
  if withElse then
    let elseBlock ← fun r => r.createBlock elseRegion []
    return { op := o, thenBlock, elseBlock? := some elseBlock }
  else
    return { op := o, thenBlock, elseBlock? := none }

/-- A counted loop. Its results and its block's arguments after the counter have the types of
the initial values, and the counter that of the lower bound. -/
def forLoop (point : InsertPoint) (lower upper step : ValueId) (inits : List ValueId) :
    Edit ForLoop := do
  let types ← Edit.ask fun r => inits.mapM r.typeOf
  let o ← operation point .forLoop (lower :: upper :: step :: inits) types 1
  let region ← regionAt o 0
  let counterType ← Edit.ask (·.typeOf lower)
  let body ← fun r => r.createBlock region (counterType :: types)
  match (← Edit.ask (·.block body)).args with
  | counter :: carried => return { op := o, body, counter, carried }
  | [] => throw (.noBlock region)

/-- A loop with a test. The block that tests takes the initial values, and the block that is
repeated takes what the test forwards. -/
def whileLoop (point : InsertPoint) (inits : List ValueId) (afterTypes : List Ty) :
    Edit WhileLoop := do
  let beforeTypes ← Edit.ask fun r => inits.mapM r.typeOf
  let o ← operation point .whileLoop inits afterTypes 2
  let beforeRegion ← regionAt o 0
  let afterRegion ← regionAt o 1
  let before ← fun r => r.createBlock beforeRegion beforeTypes
  let after ← fun r => r.createBlock afterRegion afterTypes
  return { op := o, before, after }

end Emit

end BufferOwnership
