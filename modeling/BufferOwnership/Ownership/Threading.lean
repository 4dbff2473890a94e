import BufferOwnership.Ownership.Construct
import BufferOwnership.Ownership.OpClass

/-!
# Threading ownership through a routine

Each operation is treated by its class, and the operations in its blocks in the same way. The
descent is bounded by the size of the routine, since every step goes one level deeper.

`Routine.threadOwnership` is the whole: it treats the root, checks the shape of the result if
asked to, and reports what was inserted and which indicators leave the routine with the buffers
that it returns.
-/

namespace BufferOwnership

structure Report where
  tally : Tally
  /-- The indicators of the returned buffers, in order. -/
  returned : List ValueId
deriving DecidableEq

namespace Pass

/-- An operation with effects: what it allocates is owned from right after it. -/
def throughEffects (o : OpId) (allocated freed : List ValueId) : Pass Outcome := do
  let point ← ask (·.pointAfter o)
  let acquired ← ownAll point allocated
  return { released := .ofList freed, acquired }

/-- The block of an operation's first region, if that is the only one there. -/
def bodyBlock? (o : OpId) : Pass (Option BlockId) := do
  match (← ask (·.op o)).regions with
  | [] => return none
  | g :: _ => ask (·.singleBlock? g)

/-- The body of a routine. Its parameters belong to the caller, so it must not release anything
that it did not allocate. -/
def throughRoutine (settings : Settings) (treat : OpPass) (o : OpId) : Pass Outcome := do
  let name ← ask (·.name)
  match ← bodyBlock? o with
  | none => reject (.multiBlockRegion o name)
  | some b =>
    let outcome ← throughBlock settings treat b false
    if outcome.released.isEmpty then
      return { released := ∅, acquired := outcome.acquired }
    else
      reject (.invalidRealloc o name)

/-- Blocks of unknown control flow. Ownership must neither come out of them nor go in. -/
def throughUnknownBlocks (settings : Settings) (treat : OpPass) (o : OpId) :
    List BlockId → Pass Outcome
  | [] => return .none
  | b :: rest => do
    let outcome ← throughBlock settings treat b false
    if outcome.acquired.isEmpty && outcome.released.isEmpty then
      throughUnknownBlocks settings treat o rest
    else
      let name := (← ask (·.op o)).kind.name
      reject (.unknownRegionOwnership o name)

/-- An operation with regions of unknown control flow, which must not give a buffer either. -/
def throughUnknownRegions (settings : Settings) (treat : OpPass) (o : OpId) : Pass Outcome := do
  let data ← ask (·.op o)
  if ← ask fun r => data.results.anyM r.isBuffer then
    reject (.unknownRegionReturnsBuffer o data.kind.name)
  else
    throughUnknownBlocks settings treat o (← ask (·.innerBlocks o))

end Pass

namespace Routine

def elemOf? (r : Routine) (v : ValueId) : Option ElemType :=
  r.values[v.index]?.bind fun data => data.ty.elem?

/-- What a plain operation makes alias: each buffer result with each buffer operand that has the
same elements, since it may be a view of it. -/
def plainAliases (r : Routine) (o : OpId) : Except Fault (List (ValueId × ValueId)) := do
  let data ← r.op o
  let operands ← r.buffers data.operands
  let results ← r.buffers data.results
  return results.flatMap fun result =>
    (operands.filter fun operand => r.elemOf? operand = r.elemOf? result).map fun operand =>
      (result, operand)

end Routine

namespace Pass

/-- A plain operation owns nothing and releases nothing. -/
def throughPlain (o : OpId) : Pass Outcome := do
  let pairs ← ask (·.plainAliases o)
  modifyAliases (·.unionAll pairs)
  return .none

/-- Treats an operation by its class, given how to treat the operations inside it. -/
def throughOp (settings : Settings) (treat : OpPass) : OpPass := fun o owned => do
  match (← ask (·.op o)).classify with
  | .construct kind => throughConstruct settings treat kind o owned
  | .effects allocated freed => throughEffects o allocated freed
  | .routine => throughRoutine settings treat o
  | .unknownRegions => throughUnknownRegions settings treat o
  | .plain => throughPlain o

def throughOpWithin (settings : Settings) : Nat → OpPass
  | 0, o, _ => fun _ => .error (.fault (.endless o))
  | fuel + 1, o, owned => throughOp settings (throughOpWithin settings fuel) o owned

end Pass

namespace Routine

/-- Threads ownership from the root; answers with what the root acquired and the last session. -/
def threadFromRoot (r : Routine) (settings : Settings) :
    Except (Failure Rejection) (Outcome × Session) :=
  Pass.throughOpWithin settings r.depthBound r.root ∅ (.start r)

/-- Checks the shape of a result, if the settings ask for it. -/
def checkResult (r : Routine) (settings : Settings) : Except (Failure Rejection) Unit :=
  if settings.verify then
    match r.checkShape with
    | .ok () => .ok ()
    | .error (.fault f) => .error (.fault f)
    | .error (.rejected defect) => .error (.rejected (.verification defect))
  else
    .ok ()

/-- Makes the ownership of buffers explicit in a routine. -/
def threadOwnership (r : Routine) (settings : Settings) :
    Except (Failure Rejection) (Report × Routine) := do
  let (outcome, session) ← r.threadFromRoot settings
  session.routine.checkResult settings
  return ({ tally := session.tally, returned := outcome.acquired }, session.routine)

end Routine

end BufferOwnership
