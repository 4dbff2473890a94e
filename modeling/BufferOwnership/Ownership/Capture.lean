import BufferOwnership.Ownership.Scope

/-!
# Agreement of branches

If one branch of a conditional releases a buffer and the other does not, the conditional as a
whole is to release it. The other branch then has to yield that buffer, and yields the buffer's
own indicator with it in place of the one that it had prepared.
-/

namespace BufferOwnership

/-- A construct at work: the operation and its name, for rejections. -/
structure ConstructSite where
  op : OpId
  name : String

/-- A region of a construct after its block has been treated. -/
structure RegionOutcome where
  region : RegionId
  /-- How many arguments the region had before. -/
  argCount : Nat
  outcome : Outcome

/-- What the regions of a construct come to together: the released values, the regions with the
indicators that they hand on, and indicators that were replaced there. -/
structure Reconciled where
  released : ValueSet
  regions : List RegionOutcome
  displaced : List ValueId

namespace Routine

/-- What the terminator of a block sends; nothing if there is none. -/
def sentByBlock (r : Routine) (b : BlockId) : Except Fault (List ValueId) := do
  match ← r.terminator? b with
  | none => return []
  | some terminator => return (← r.op terminator).operands

/-- The slot of a value that a branch yields: the number of buffers yielded before it. -/
def yieldSlot? (r : Routine) (yielded : List ValueId) (v : ValueId) :
    Except Fault (Option Nat) := do
  match yielded.idxOf? v with
  | none => return none
  | some position => return some (← r.buffers (yielded.take position)).length

end Routine

namespace Pass

/-- Makes a branch hand on the recorded indicator of a value that the other branch releases.
Answers with the indicators of the branch after that and the one that was replaced. -/
def capture (site : ConstructSite) (region : RegionId) (acquired : List ValueId) (v : ValueId) :
    Pass (List ValueId × ValueId) := do
  match (← ask (·.region region)).blocks with
  | [] => reject (.captureWithoutElse site.op site.name)
  | b :: _ =>
    let yielded ← ask (·.sentByBlock b)
    match ← ask (·.yieldSlot? yielded v) with
    | none => reject (.releasedValueNotYielded site.op site.name v)
    | some slot =>
      match acquired[slot]? with
      | none => reject (.releasedValueNotYielded site.op site.name v)
      | some displaced =>
        match (← aliases).indicatorOf? v with
        | none => reject (.missingIndicator site.op site.name v)
        | some indicator =>
          -- forgotten, so that a second release of the value is noticed
          modifyAliases (·.dropIndicator v)
          return (acquired.set slot indicator, displaced)

def captureAll (site : ConstructSite) (region : RegionId) :
    List ValueId → List ValueId → Pass (List ValueId × List ValueId)
  | [], acquired => return (acquired, [])
  | v :: rest, acquired => do
    let (acquired, displaced) ← capture site region acquired v
    let (acquired, others) ← captureAll site region rest acquired
    return (acquired, displaced :: others)

/-- Brings two branches to release the same values. -/
def reconcilePair (site : ConstructSite) (first second : RegionOutcome) : Pass Reconciled := do
  let inFirst := first.outcome.released
  let inSecond := second.outcome.released
  if inFirst = inSecond then
    return { released := inFirst, regions := [first, second], displaced := [] }
  else
    -- what only the first releases is captured in the second, and the other way round
    let (secondAcquired, fromSecond) ←
      captureAll site second.region (inFirst.diff inSecond).toList second.outcome.acquired
    let (firstAcquired, fromFirst) ←
      captureAll site first.region (inSecond.diff inFirst).toList first.outcome.acquired
    return {
      released := inFirst.union inSecond
      regions :=
        [{ first with outcome := { first.outcome with acquired := firstAcquired } },
         { second with outcome := { second.outcome with acquired := secondAcquired } }]
      displaced := fromSecond ++ fromFirst }

/-- Brings the regions of a construct to release the same values; only branches can differ. -/
def reconcile (site : ConstructSite) (regions : List RegionOutcome) : Pass Reconciled := do
  if regions.all fun g => g.outcome.released.isEmpty then
    return { released := ∅, regions, displaced := [] }
  else
    match regions with
    | [first, second] => reconcilePair site first second
    | _ => reject (.captureWithoutElse site.op site.name)

/-- Erases a retain that takes nothing in and has no result in use, given one of its results. -/
def dropIfDead (indicator : ValueId) : Pass Unit := do
  match (← ask (·.value indicator)).origin with
  | .argument .. => return ()
  | .result o _ =>
    let data ← ask (·.op o)
    let unused ← ask fun r => return data.results.all fun v => (r.uses v).isEmpty
    if data.kind = .retain data.operands.length ∧ !data.erased ∧ unused then
      edit (Edit.change (·.eraseOp o))
      count fun t => { t with retains := t.retains - 1 }
    else
      return ()

end Pass

end BufferOwnership
