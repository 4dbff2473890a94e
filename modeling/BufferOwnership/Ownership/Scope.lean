import BufferOwnership.Ownership.Release

/-!
# Blocks

A block is the scope of ownership: it owns the indicators of what it allocates, and, in a
construct, those of its arguments. This module threads ownership through one block, given how to
treat a single operation.

Operations are treated in order. What an operation releases is taken from the owned indicators, or
is passed on as released by the block; what it acquires is owned from then on. At the end, an
owned indicator whose class does not escape through the terminator is released as early as
possible, and the others leave with the buffers that escape.
-/

namespace BufferOwnership

/-- How to treat one operation, given the indicators that its block owns at that point. -/
abbrev OpPass := OpId → ValueSet → Pass Outcome

/-- The indicators that a block owns at some point, and what it has released without owning it. -/
structure Holdings where
  owned : ValueSet
  released : ValueSet
deriving DecidableEq

namespace Holdings

/-- Releases a value: the least owned indicator of its class goes; if there is none, the value is
released on behalf of an enclosing block. -/
def release (aliases : AliasClasses) (h : Holdings) (v : ValueId) : Holdings :=
  match h.owned.toList.find? (aliases.same v) with
  | some indicator => { h with owned := h.owned.erase indicator }
  | none => { h with released := h.released.insert v }

/-- What an operation released and acquired, taken into account. -/
def absorb (aliases : AliasClasses) (h : Holdings) (outcome : Outcome) : Holdings :=
  let h := outcome.released.toList.foldl (release aliases) h
  { h with owned := h.owned.insertMany outcome.acquired }

end Holdings

namespace Pass

/-- Gives each of some buffer arguments of a block an argument for its indicator. -/
def ownArguments (b : BlockId) : List ValueId → ValueSet → Pass ValueSet
  | [], owned => return owned
  | arg :: rest, owned => do
    let indicator ← edit fun r => r.addBlockArg b .ownership
    modifyAliases (·.setIndicator arg indicator)
    ownArguments b rest (owned.insert indicator)

def openBlock (b : BlockId) (ownsInputs : Bool) : Pass ValueSet := do
  if ownsInputs then
    let args ← ask fun r => do r.buffers (← r.block b).args
    ownArguments b args ∅
  else
    return ∅

def throughOps (treat : OpPass) : List OpId → Holdings → Pass Holdings
  | [], h => return h
  | o :: rest, h => do
    let outcome ← treat o h.owned
    throughOps treat rest (h.absorb (← aliases) outcome)

/-- Releases an indicator: a retain without retained values consumes it. -/
def releaseIndicator (settings : Settings) (terminator : OpId) (indicator : ValueId) :
    Pass OpId := do
  let classes ← aliases
  let anchor ← ask fun r => r.releaseAnchor settings classes terminator indicator
  retain (.before anchor) [] [indicator]

/-- Releases those of some indicators that no escaping value aliases. -/
def releaseUnescaped (settings : Settings) (terminator : OpId) (escaping : List ValueId) :
    List ValueId → Pass Unit
  | [] => return ()
  | indicator :: rest => do
    let classes ← aliases
    if escaping.any fun v => classes.same v indicator then
      releaseUnescaped settings terminator escaping rest
    else
      let _ ← releaseIndicator settings terminator indicator
      releaseUnescaped settings terminator escaping rest

/-- The indicators with which the values of one group leave, by position. -/
def settleGroup (terminator : OpId) (group : EscapeGroup) : Pass (List (Nat × ValueId)) := do
  if group.isDirect then
    return (group.escaping.map (·.1)).zip group.owned
  else
    let o ← retain (.before terminator) (group.escaping.map (·.2)) group.owned
    let results := (← ask (·.op o)).results
    modifyAliases (·.unionAll (results.zip (group.escaping.map (·.2))))
    return (group.escaping.map (·.1)).zip results

def settleGroups (terminator : OpId) : List EscapeGroup → Pass (List (Nat × ValueId))
  | [] => return []
  | group :: rest => do
    let settled ← settleGroup terminator group
    return settled ++ (← settleGroups terminator rest)

/-- The indicators for the given positions, in order; one that owns nothing is shared. -/
def fillSlots (terminator : OpId) (settled : List (Nat × ValueId)) :
    Option ValueId → List Nat → Pass (List ValueId)
  | _, [] => return []
  | null?, position :: rest => do
    match settled.lookup position, null? with
    | some indicator, _ => return indicator :: (← fillSlots terminator settled null? rest)
    | none, some shared => return shared :: (← fillSlots terminator settled null? rest)
    | none, none =>
      let shared ← null (.before terminator)
      return shared :: (← fillSlots terminator settled (some shared) rest)

/-- Releases what does not escape, and answers with an indicator for each escaping value. -/
def closeBlock (settings : Settings) (terminator : OpId) (owned : ValueSet) :
    Pass (List ValueId) := do
  let escaping ← ask fun r => do r.buffers (← r.op terminator).operands
  -- releasing comes first, and leaves the classes as they are
  releaseUnescaped settings terminator escaping owned.toList
  let settled ← settleGroups terminator ((← aliases).planEscapes escaping owned)
  fillSlots terminator settled none (List.range escaping.length)

/-- The rejection of a block that does not end in a terminator. -/
def rejectOpenEnded (b : BlockId) : Pass Outcome := do
  let owner ← ask fun r => do return (← r.region (← r.block b).parent).parent
  let name := (← ask (·.op owner)).kind.name
  reject (.missingTerminator owner name b)

/-- Threads ownership through a block. The block owns its buffer arguments if `ownsInputs`
holds, and then gets an argument for the indicator of each. -/
def throughBlock (settings : Settings) (treat : OpPass) (b : BlockId) (ownsInputs : Bool) :
    Pass Outcome := do
  match ← ask (·.terminator? b) with
  | none => rejectOpenEnded b
  | some terminator =>
    let owned ← openBlock b ownsInputs
    -- operations inserted from here on are not visited
    let body ← ask (·.bodyOps b)
    let held ← throughOps treat body { owned, released := ∅ }
    let acquired ← closeBlock settings terminator held.owned
    return { released := held.released, acquired }

end Pass

end BufferOwnership
