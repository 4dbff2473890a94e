import BufferOwnership.Routine.Basic

/-!
# Control flow of constructs

A construct moves values along edges: from its operands into a region, from the end of a region
into a region, or out to its results. An edge pairs the values that are sent with the values that
receive them, by position.
-/

namespace BufferOwnership

/-- Where an edge leads: into a region of the construct, or to its results. -/
inductive EdgeTarget where
  | region (index : Nat)
  | results
deriving DecidableEq

/-- An edge with what is sent along it and what receives. -/
structure FlowEdge where
  target : EdgeTarget
  sent : List ValueId
  received : List ValueId
deriving DecidableEq

namespace Routine

/-- The arguments of the region at an index; none if there is no such region. -/
def argsOfRegionAt (r : Routine) (regions : List RegionId) (index : Nat) :
    Except Fault (List ValueId) :=
  match regions[index]? with
  | none => return []
  | some g => r.regionArgs g

/-- Has the region at an index no block? An absent region has none. -/
def isRegionAtEmpty (r : Routine) (regions : List RegionId) (index : Nat) : Except Fault Bool :=
  match regions[index]? with
  | none => return true
  | some g => return (← r.region g).blocks.isEmpty

/-- The operands of the terminator of the first block of the region at an index. -/
def sentByRegionAt? (r : Routine) (regions : List RegionId) (index : Nat) :
    Except Fault (Option (List ValueId)) :=
  match regions[index]? with
  | none => return none
  | some g => do
    match (← r.region g).blocks with
    | [] => return none
    | b :: _ =>
      match ← r.terminator? b with
      | none => return none
      | some last => return some (← r.op last).operands

/-- The edges of a construct from where it is entered.

A conditional goes into its first or its second region, or past it if the second is empty. A
counted loop runs its body or is done at once; its first three operands and the first argument of
its body concern the counter. A loop with a test begins with the test. -/
def entryEdges (r : Routine) (data : Op) : Except Fault (List FlowEdge) := do
  match data.kind with
  | .conditional =>
    let skips ← r.isRegionAtEmpty data.regions 1
    return [⟨.region 0, [], []⟩, ⟨if skips then .results else .region 1, [], []⟩]
  | .forLoop =>
    let args ← r.argsOfRegionAt data.regions 0
    let inits := data.operands.drop 3
    return [⟨.region 0, inits, args.drop 1⟩, ⟨.results, inits, data.results⟩]
  | .whileLoop =>
    return [⟨.region 0, data.operands, ← r.argsOfRegionAt data.regions 0⟩]
  | _ => return []

/-- The edges from the end of a region of a construct, given what the terminator sends. -/
def exitEdges (r : Routine) (data : Op) (index : Nat) (sent : List ValueId) :
    Except Fault (List FlowEdge) := do
  match data.kind, index with
  | .conditional, _ => return [⟨.results, sent, data.results⟩]
  | .forLoop, 0 =>
    let args ← r.argsOfRegionAt data.regions 0
    return [⟨.region 0, sent, args.drop 1⟩, ⟨.results, sent, data.results⟩]
  | .whileLoop, 0 =>
    let args ← r.argsOfRegionAt data.regions 1
    return [⟨.region 1, sent.drop 1, args⟩, ⟨.results, sent.drop 1, data.results⟩]
  | .whileLoop, 1 =>
    return [⟨.region 0, sent, ← r.argsOfRegionAt data.regions 0⟩]
  | _, _ => return []

end Routine

/-- Does a construct of this kind continue from the end of the region at an index? -/
def OpKind.leavesRegion : OpKind → Nat → Bool
  | .conditional, _ => true
  | .forLoop, 0 => true
  | .whileLoop, 0 => true
  | .whileLoop, 1 => true
  | _, _ => false

namespace Routine

/-- The edges of an operation from where it is entered, or from the end of a region. A region
that does not end in a terminator has no edges, nor has an operation that is no construct. -/
def flowEdges (r : Routine) (o : OpId) : Option Nat → Except Fault (List FlowEdge)
  | none => do r.entryEdges (← r.op o)
  | some index => do
    let data ← r.op o
    if data.kind.leavesRegion index then
      match ← r.sentByRegionAt? data.regions index with
      | none => return []
      | some sent => r.exitEdges data index sent
    else
      return []

end Routine

end BufferOwnership
