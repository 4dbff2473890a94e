import BufferOwnership.Failure
import BufferOwnership.Flow
import BufferOwnership.Routine.Nesting

/-!
# Shapes

A routine is well shaped if its blocks end in terminators and only there, its retains have one
result for each retained value, and its constructs pass along every edge as many values as are
received. The check here visits the operations from the root on, and reports the first defect
that it meets: an operation before its blocks, these before what they contain, and of the
operations inside an operation the last ones first.
-/

namespace BufferOwnership

inductive ShapeError where
  | missingTerminator (block : BlockId)
  | misplacedTerminator (op : OpId) (name : String)
  | multiBlockRegion (op : OpId) (name : String)
  | retainSegments (op : OpId) (count operands results : Nat)
  | ifWithoutElse (op : OpId)
  | edgeArity (op : OpId) (name source target : String) (sent received : Nat)
deriving DecidableEq

namespace ShapeError

def message : ShapeError → String
  | missingTerminator b => s!"block {b.label} does not end with a terminator"
  | misplacedTerminator o name =>
    s!"terminator `{name}` ({o.label}) is not the last operation of its block"
  | multiBlockRegion o name => s!"region of `{name}` ({o.label}) has more than one block"
  | retainSegments o count operands results =>
    s!"retain ({o.label}) declares {count} retained values " ++
      s!"but has {operands} operands and {results} results"
  | ifWithoutElse o => s!"if ({o.label}) produces results but has no else body"
  | edgeArity o name source target sent received =>
    s!"edge of `{name}` ({o.label}) from {source} to {target} " ++
      s!"passes {sent} values to {received} receivers"

/-- The operation at which a defect was found. -/
def op? : ShapeError → Option OpId
  | missingTerminator _ => none
  | misplacedTerminator o _ => some o
  | multiBlockRegion o _ => some o
  | retainSegments o _ _ _ => some o
  | ifWithoutElse o => some o
  | edgeArity o _ _ _ _ _ => some o

end ShapeError

/-- The answer of a check: nothing, or the first defect. -/
abbrev ShapeCheck := Except (Failure ShapeError)

def sourceName : Option Nat → String
  | none => "entry"
  | some index => s!"region {index}"

def EdgeTarget.name : EdgeTarget → String
  | region index => s!"region {index}"
  | results => "results"

namespace Routine

/-! ## Blocks -/

def findTerminator? (r : Routine) : List OpId → Except Fault (Option (OpId × OpKind))
  | [] => return none
  | o :: rest => do
    let kind := (← r.op o).kind
    if kind.isTerminator then return some (o, kind) else r.findTerminator? rest

/-- A block has to end in a terminator and to have no other one. -/
def checkBlock (r : Routine) (b : BlockId) : ShapeCheck Unit := do
  let ops := (← orFault (r.block b)).ops
  match ← orFault (r.terminator? b) with
  | none => .error (.rejected (.missingTerminator b))
  | some _ =>
    match ← orFault (r.findTerminator? ops.dropLast) with
    | some (o, kind) => .error (.rejected (.misplacedTerminator o kind.name))
    | none => return ()

def checkRegions (r : Routine) : List RegionId → ShapeCheck Unit
  | [] => return ()
  | g :: rest => do
    (← orFault (r.region g)).blocks.forM r.checkBlock
    r.checkRegions rest

/-! ## Operations -/

/-- A retain has one result for each retained value, which come first among its operands; a
conditional with results has an alternative. -/
def checkCounts (r : Routine) (o : OpId) (data : Op) : ShapeCheck Unit :=
  match data.kind with
  | .retain count =>
    if count > data.operands.length || data.results.length != count then
      .error (.rejected (.retainSegments o count data.operands.length data.results.length))
    else
      return ()
  | .conditional => do
    let elseEmpty ← orFault (r.isRegionAtEmpty data.regions 1)
    if elseEmpty && !data.results.isEmpty then
      .error (.rejected (.ifWithoutElse o))
    else
      return ()
  | _ => return ()

def hasMultiBlockRegion (r : Routine) (regions : List RegionId) : Except Fault Bool :=
  regions.anyM fun g => return (← r.region g).blocks.length > 1

/-- An edge sends as many values as are received. -/
def checkEdge (o : OpId) (name : String) (source : Option Nat) (edge : FlowEdge) :
    ShapeCheck Unit :=
  if edge.sent.length = edge.received.length then
    return ()
  else
    .error (.rejected (.edgeArity o name (sourceName source) edge.target.name
      edge.sent.length edge.received.length))

/-- Checks the edges of a construct from one source. -/
def checkEdgesFrom (r : Routine) (o : OpId) (name : String) (source : Option Nat) :
    ShapeCheck Unit := do
  (← orFault (r.flowEdges o source)).forM (checkEdge o name source)

/-- The places from which a construct with that many regions has edges. -/
def edgeSources (regionCount : Nat) : List (Option Nat) :=
  none :: (List.range regionCount).map some

/-- A construct has at most one block in each region, and its edges fit. -/
def checkConstruct (r : Routine) (o : OpId) (data : Op) : ShapeCheck Unit := do
  match data.kind.construct? with
  | none => return ()
  | some _ =>
    if ← orFault (r.hasMultiBlockRegion data.regions) then
      .error (.rejected (.multiBlockRegion o data.kind.name))
    else
      (edgeSources data.regions.length).forM (r.checkEdgesFrom o data.kind.name)

/-- Checks an operation without what is nested in it. -/
def checkOp (r : Routine) (o : OpId) (data : Op) : ShapeCheck Unit := do
  r.checkCounts o data
  r.checkConstruct o data

/-- Checks an operation, its blocks, and then, from last to first, the operations in them. -/
def checkWithin (r : Routine) : Nat → OpId → ShapeCheck Unit
  | 0, o => .error (.fault (.endless o))
  | fuel + 1, o => do
    let data ← orFault (r.op o)
    r.checkOp o data
    r.checkRegions data.regions
    -- what is nested last is looked at first
    (← orFault (r.innerOps o)).reverse.forM (r.checkWithin fuel)

def checkShape (r : Routine) : ShapeCheck Unit := r.checkWithin r.depthBound r.root

end Routine

end BufferOwnership
