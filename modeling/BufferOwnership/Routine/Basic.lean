import BufferOwnership.Operation

/-!
# Routines

A routine is a program fragment in which operations hold regions, regions hold blocks and blocks
hold operations. All parts live in four tables and refer to each other by identifier; an operation
that is taken out of the routine stays in its table, marked as erased, so that identifiers keep
their meaning.

Nothing forces an identifier to name an entry. Storing one is always possible; asking for the
entry behind it answers with a `Fault` when there is none. Every query below is of this kind.
-/

namespace BufferOwnership

inductive ValueOrigin where
  | result (op : OpId) (index : Nat)
  | argument (block : BlockId) (index : Nat)
deriving DecidableEq

/-- An entry of the table of values. -/
structure Value where
  ty : Ty
  origin : ValueOrigin
deriving DecidableEq

/-- An entry of the table of operations; `parent` is the block that lists it, if any. -/
structure Op where
  kind : OpKind
  operands : List ValueId
  results : List ValueId
  regions : List RegionId
  parent : Option BlockId
  erased : Bool
deriving DecidableEq

/-- An entry of the table of blocks. -/
structure Block where
  args : List ValueId
  ops : List OpId
  parent : RegionId
deriving DecidableEq

/-- An entry of the table of regions. -/
structure Region where
  blocks : List BlockId
  parent : OpId
deriving DecidableEq

/-- A routine: the four tables and the operation under which everything hangs. -/
structure Routine where
  values : Array Value
  ops : Array Op
  blocks : Array Block
  regions : Array Region
  root : OpId
deriving DecidableEq

/-- A place in a block where an operation can be put. -/
inductive InsertPoint where
  | before (anchor : OpId)
  | atEnd (block : BlockId)
deriving DecidableEq

/-- Why a query or an edit of a routine has no answer. -/
inductive Fault where
  | unknownValue (value : ValueId)
  | unknownOp (op : OpId)
  | unknownBlock (block : BlockId)
  | unknownRegion (region : RegionId)
  /-- The operation was expected to have a region. -/
  | noRegion (op : OpId)
  /-- The region was expected to have a block. -/
  | noBlock (region : RegionId)
  /-- The operation to be inserted stands in a block already. -/
  | alreadyLinked (op : OpId)
  /-- The operation to insert before is in no block. -/
  | detachedAnchor (op : OpId)
  /-- The block that should hold the operation to insert before does not list it. -/
  | strayAnchor (op : OpId)
  /-- Following the nesting, or the neighbours, of the operation comes to no end. -/
  | endless (op : OpId)
  /-- A guard on the treatment of the operation does not hold. No query and no edit ends so. -/
  | unguarded (op : OpId)
deriving DecidableEq

/-- The text that goes with a fault, for those that have one. -/
def Fault.message? : Fault → Option String
  | alreadyLinked op => some s!"insert_op: {op.label} is already linked"
  | detachedAnchor op => some s!"insert_op: anchor {op.label} is detached"
  | strayAnchor op => some s!"insert_op: anchor {op.label} not in its block"
  | _ => none

namespace Routine

variable {r : Routine}

/-! ## Entries -/

def value (r : Routine) (v : ValueId) : Except Fault Value :=
  match r.values[v.index]? with
  | some data => .ok data
  | none => .error (.unknownValue v)

def op (r : Routine) (o : OpId) : Except Fault Op :=
  match r.ops[o.index]? with
  | some data => .ok data
  | none => .error (.unknownOp o)

def block (r : Routine) (b : BlockId) : Except Fault Block :=
  match r.blocks[b.index]? with
  | some data => .ok data
  | none => .error (.unknownBlock b)

def region (r : Routine) (g : RegionId) : Except Fault Region :=
  match r.regions[g.index]? with
  | some data => .ok data
  | none => .error (.unknownRegion g)

@[simp] theorem value_eq_ok {v : ValueId} {data : Value} :
    r.value v = .ok data ↔ r.values[v.index]? = some data := by
  unfold value
  split <;> simp_all

@[simp] theorem op_eq_ok {o : OpId} {data : Op} :
    r.op o = .ok data ↔ r.ops[o.index]? = some data := by
  unfold op
  split <;> simp_all

@[simp] theorem block_eq_ok {b : BlockId} {data : Block} :
    r.block b = .ok data ↔ r.blocks[b.index]? = some data := by
  unfold block
  split <;> simp_all

@[simp] theorem region_eq_ok {g : RegionId} {data : Region} :
    r.region g = .ok data ↔ r.regions[g.index]? = some data := by
  unfold region
  split <;> simp_all

/-! ## Values -/

def typeOf (r : Routine) (v : ValueId) : Except Fault Ty :=
  return (← r.value v).ty

def isBuffer (r : Routine) (v : ValueId) : Except Fault Bool :=
  return (← r.typeOf v).isBuffer

/-- The buffers among some values, in order. -/
def buffers (r : Routine) : List ValueId → Except Fault (List ValueId)
  | [] => return []
  | v :: vs => do
    let isBuffer ← r.isBuffer v
    let rest ← r.buffers vs
    return if isBuffer then v :: rest else rest

/-! ## Operations -/

/-- The operations that have not been erased, in the order of the table. -/
def liveOps (r : Routine) : List OpId :=
  r.ops.toList.zipIdx.filterMap fun (data, i) => if data.erased then none else some ⟨i⟩

end Routine

/-- The positions at which an operation has a value as operand. -/
def Op.operandSlots (data : Op) (v : ValueId) : List Nat :=
  data.operands.zipIdx.filterMap fun (operand, i) => if operand = v then some i else none

namespace Routine

/-- The uses of a value: the operations in the order of the table, and for each of them the
positions of the value. Erased operations use nothing. -/
def uses (r : Routine) (v : ValueId) : List (OpId × Nat) :=
  r.ops.toList.zipIdx.flatMap fun (data, i) =>
    if data.erased then [] else (data.operandSlots v).map fun slot => (⟨i⟩, slot)

/-- The name of a routine, as its root gives it. -/
def name (r : Routine) : Except Fault String := do
  match (← r.op r.root).kind with
  | .routine name => return name
  | other => return other.name

/-! ## Blocks and regions -/

/-- The block in which a routine begins. -/
def entryBlock (r : Routine) : Except Fault BlockId := do
  match (← r.op r.root).regions with
  | [] => .error (.noRegion r.root)
  | body :: _ =>
    match (← r.region body).blocks with
    | [] => .error (.noBlock body)
    | entry :: _ => return entry

def params (r : Routine) : Except Fault (List ValueId) := do
  return (← r.block (← r.entryBlock)).args

/-- The block of a region that has exactly one. -/
def singleBlock? (r : Routine) (g : RegionId) : Except Fault (Option BlockId) := do
  match (← r.region g).blocks with
  | [b] => return some b
  | _ => return none

def regionArgs (r : Routine) (g : RegionId) : Except Fault (List ValueId) := do
  match (← r.region g).blocks with
  | [] => return []
  | b :: _ => return (← r.block b).args

/-- The operation that ends a block, if the last one is of a kind that can. -/
def terminator? (r : Routine) (b : BlockId) : Except Fault (Option OpId) := do
  match (← r.block b).ops.getLast? with
  | none => return none
  | some last => return if (← r.op last).kind.isTerminator then some last else none

/-- The operations of a block without its terminator. -/
def bodyOps (r : Routine) (b : BlockId) : Except Fault (List OpId) := do
  let ops := (← r.block b).ops
  match ← r.terminator? b with
  | some _ => return ops.dropLast
  | none => return ops

/-! ## Neighbours -/

/-- The list in which an operation stands and its place there. -/
def position? (r : Routine) (o : OpId) : Except Fault (Option (List OpId × Nat)) := do
  match (← r.op o).parent with
  | none => return none
  | some b =>
    let ops := (← r.block b).ops
    return (ops.idxOf? o).map fun place => (ops, place)

def prevOp? (r : Routine) (o : OpId) : Except Fault (Option OpId) := do
  match ← r.position? o with
  | some (ops, place + 1) => return ops[place]?
  | _ => return none

def nextOp? (r : Routine) (o : OpId) : Except Fault (Option OpId) := do
  match ← r.position? o with
  | some (ops, place) => return ops[place + 1]?
  | none => return none

/-- The place right after an operation. A detached operation has none, and the answer then is the
place before it, where nothing can be inserted. -/
def pointAfter (r : Routine) (o : OpId) : Except Fault InsertPoint := do
  match ← r.nextOp? o with
  | some next => return .before next
  | none =>
    match (← r.op o).parent with
    | some b => return .atEnd b
    | none => return .before o

end Routine

end BufferOwnership
