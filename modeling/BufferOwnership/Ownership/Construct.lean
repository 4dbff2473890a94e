import BufferOwnership.Flow
import BufferOwnership.Ownership.Capture

/-!
# Constructs

Ownership goes through a construct along with the buffers. Each region's block owns its buffer
arguments, and hands on an indicator for each buffer that it sends. The construct itself is
replaced by one that takes an indicator for each buffer operand and gives one for each buffer
result. An operand brings its own indicator if the construct is its last use, and otherwise one
that owns nothing.
-/

namespace BufferOwnership

namespace Pass

/-! ## Regions -/

/-- Threads ownership through the block of a region. A loop body must not release anything that
it does not own, since it may run more than once. -/
def throughRegion (settings : Settings) (treat : OpPass) (site : ConstructSite)
    (kind : ConstructKind) (g : RegionId) : Pass RegionOutcome := do
  let argCount := (← ask (·.regionArgs g)).length
  match ← ask (·.singleBlock? g) with
  | none => return { region := g, argCount, outcome := .none }
  | some b =>
    let outcome ← throughBlock settings treat b true
    if kind = .loop ∧ !outcome.released.isEmpty then
      reject (.crossLoopRelease site.op site.name)
    else
      return { region := g, argCount, outcome }

def throughRegions (settings : Settings) (treat : OpPass) (site : ConstructSite)
    (kind : ConstructKind) : List RegionId → Pass (List RegionOutcome)
  | [] => return []
  | g :: rest => do
    let first ← throughRegion settings treat site kind g
    return first :: (← throughRegions settings treat site kind rest)

/-- Makes the terminator of a region send the indicators that the region hands on. -/
def sendAcquired (g : RegionOutcome) : Pass Unit := do
  match ← ask (·.singleBlock? g.region) with
  | none => return ()
  | some b =>
    match ← ask (·.terminator? b) with
    | none => return ()
    | some terminator =>
      edit (Edit.change (·.appendOperands terminator g.outcome.acquired))

/-! ## Operands -/

/-- The indicator that can go into a construct with an operand: one that the enclosing block owns
for it, if the construct has not released it and nothing touches it afterwards. -/
def transferable? (settings : Settings) (o : OpId) (owned released : ValueSet)
    (operand : ValueId) : Pass (Option ValueId) := do
  if settings.transfer then
    let classes ← aliases
    match owned.toList.find? (classes.same operand) with
    | none => return none
    | some indicator =>
      if released.toList.any (classes.same operand) then
        return none
      else if ← ask (·.isLastUse classes o operand) then
        return some indicator
      else
        return none
  else
    return none

/-- The indicators that go into a construct, and what it has released once they are gone. -/
def transferOperands (settings : Settings) (o : OpId) (owned : ValueSet) :
    List ValueId → ValueSet → Pass (List ValueId × ValueSet)
  | [], released => return ([], released)
  | operand :: rest, released => do
    match ← transferable? settings o owned released operand with
    | some indicator =>
      count fun t => { t with transfers := t.transfers + 1 }
      let (indicators, released) ←
        transferOperands settings o owned rest (released.insert indicator)
      return (indicator :: indicators, released)
    | none =>
      let indicator ← null (.before o)
      let (indicators, released) ← transferOperands settings o owned rest released
      return (indicator :: indicators, released)

end Pass

/-! ## Replacement -/

/-- Replaces a construct by one of the same kind, with more operands and with an indicator among
its results for each buffer result. The regions move over, and the old results give way to the
new ones. -/
def rebuildConstruct (o : OpId) (indicators : List ValueId) : Edit OpId := do
  let data ← Edit.ask (·.op o)
  let types ← Edit.ask fun r => data.results.mapM r.typeOf
  let added := (types.filter Ty.isBuffer).map fun _ => Ty.ownership
  let new ← Emit.operation (.before o) data.kind (data.operands ++ indicators) (types ++ added) 0
  Edit.change (·.moveRegions o new)
  -- only the old results are paired; the indicators come behind them
  let results := (← Edit.ask (·.op new)).results
  modify (·.replaceEach (data.results.zip results))
  Edit.change (·.eraseOp o)
  return new

namespace Routine

/-! ## Aliases -/

/-- What a construct makes alias by its control flow from one source. -/
def edgeAliases (r : Routine) (o : OpId) (source : Option Nat) :
    Except Fault (List (ValueId × ValueId)) := do
  return (← r.flowEdges o source).flatMap fun edge => edge.sent.zip edge.received

/-- What a construct makes alias at a region, along edges and for the arguments' indicators. -/
def regionAliases (r : Routine) (o : OpId) (index : Nat) (g : RegionOutcome) :
    Except Fault (List (ValueId × ValueId)) := do
  let alongEdges ← r.edgeAliases o (some index)
  let args ← r.regionArgs g.region
  let buffers ← r.buffers (args.take g.argCount)
  return alongEdges ++ buffers.zip (args.drop g.argCount)

/-- What a construct makes alias at its regions, the first of which has the given index. -/
def regionsAliases (r : Routine) (o : OpId) :
    Nat → List RegionOutcome → Except Fault (List (ValueId × ValueId))
  | _, [] => return []
  | index, g :: rest => do
    let first ← r.regionAliases o index g
    return first ++ (← r.regionsAliases o (index + 1) rest)

/-- What a rebuilt construct makes alias: along its edges, arguments with their indicators, and
results with theirs. The first `resultCount` results are those that it had before. -/
def constructAliases (r : Routine) (o : OpId) (resultCount : Nat) (regions : List RegionOutcome) :
    Except Fault (List (ValueId × ValueId)) := do
  let results := (← r.op o).results
  let onEntry ← r.edgeAliases o none
  let inRegions ← r.regionsAliases o 0 regions
  let buffers ← r.buffers (results.take resultCount)
  return onEntry ++ inRegions ++ buffers.zip (results.drop resultCount)

end Routine

namespace Pass

/-- Threads ownership through a construct, given the indicators that the enclosing block owns. -/
def throughConstruct (settings : Settings) (treat : OpPass) (kind : ConstructKind) (o : OpId)
    (owned : ValueSet) : Pass Outcome := do
  let data ← ask (·.op o)
  let site : ConstructSite := { op := o, name := data.kind.name }
  if ← ask (·.hasMultiBlockRegion data.regions) then
    reject (.multiBlockRegion o site.name)
  else
    -- inside: each region on its own, then all brought to release the same
    let regions ← throughRegions settings treat site kind data.regions
    let agreed ← reconcile site regions
    agreed.regions.forM sendAcquired
    agreed.displaced.forM dropIfDead
    -- outside: what goes in with the operands, and the construct that takes it
    let operands ← ask fun r => do r.buffers (← r.op o).operands
    let (indicators, released) ← transferOperands settings o owned operands agreed.released
    let resultCount := (← ask (·.op o)).results.length
    let new ← edit (rebuildConstruct o indicators)
    -- the new values alias what they accompany
    let pairs ← ask (·.constructAliases new resultCount agreed.regions)
    modifyAliases (·.unionAll pairs)
    return { released, acquired := (← ask (·.op new)).results.drop resultCount }

end Pass

end BufferOwnership
