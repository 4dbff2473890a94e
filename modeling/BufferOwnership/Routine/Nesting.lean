import BufferOwnership.Routine.Basic

/-!
# Nesting

Operations nest: an operation's regions hold blocks that list further operations. A chain of
nested operations without repetition is no longer than the table of operations, so this length
bounds every descent. A routine whose operations contain each other in a circle runs out of the
bound and gives the fault `endless`.
-/

namespace BufferOwnership

namespace Routine

/-- Enough steps to go down any nesting without repetition, or along any block. -/
def depthBound (r : Routine) : Nat := r.ops.size + 1

/-- The blocks directly inside an operation, region by region. -/
def innerBlocks (r : Routine) (o : OpId) : Except Fault (List BlockId) := do
  let regions ← (← r.op o).regions.mapM r.region
  return regions.flatMap (·.blocks)

def innerOps (r : Routine) (o : OpId) : Except Fault (List OpId) := do
  let blocks ← (← r.innerBlocks o).mapM r.block
  return blocks.flatMap (·.ops)

/-- An operation and everything nested in it, each operation before what it contains. -/
def subtreeWithin (r : Routine) : Nat → OpId → Except Fault (List OpId)
  | 0, o => .error (.endless o)
  | fuel + 1, o => do
    let below ← (← r.innerOps o).mapM (r.subtreeWithin fuel)
    return o :: below.flatten

def subtree (r : Routine) (o : OpId) : Except Fault (List OpId) :=
  r.subtreeWithin r.depthBound o

/-- Does some value that an operation reads or defines, itself or in an operation nested in it,
pass a test? The operation's own operands count only if `withOperands` holds; those of nested
operations always do. -/
def touchesWithin (r : Routine) (test : ValueId → Bool) : Nat → OpId → Bool → Except Fault Bool
  | 0, o, _ => .error (.endless o)
  | fuel + 1, o, withOperands => do
    let data ← r.op o
    if withOperands && data.operands.any test then
      return true
    else if data.results.any test then
      return true
    else
      data.regions.anyM fun g => do
        (← r.region g).blocks.anyM fun b => do
          (← r.block b).ops.anyM fun inner => r.touchesWithin test fuel inner true

/-- Does an operation, or one nested in it, touch a value that passes a test? -/
def touches (r : Routine) (test : ValueId → Bool) (o : OpId) (withOperands : Bool) :
    Except Fault Bool :=
  r.touchesWithin test r.depthBound o withOperands

end Routine

end BufferOwnership
