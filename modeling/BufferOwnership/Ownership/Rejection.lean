import BufferOwnership.Shape

/-!
# Rejections

The reasons for which ownership cannot be threaded through a routine. Each names the operation at
which it was found and that operation's name, has a code, and has a text.
-/

namespace BufferOwnership

inductive Rejection where
  /-- A loop body frees a buffer from outside the loop. -/
  | crossLoopRelease (op : OpId) (name : String)
  /-- One branch of a conditional frees a buffer, and there is no other branch. -/
  | captureWithoutElse (op : OpId) (name : String)
  /-- One branch frees a buffer, and the other neither frees nor yields it. -/
  | releasedValueNotYielded (op : OpId) (name : String) (value : ValueId)
  /-- One branch frees a buffer for which no indicator is recorded. -/
  | missingIndicator (op : OpId) (name : String) (value : ValueId)
  /-- A region of unknown control flow frees a buffer or lets one escape. -/
  | unknownRegionOwnership (op : OpId) (name : String)
  /-- An operation with regions of unknown control flow has a buffer as result. -/
  | unknownRegionReturnsBuffer (op : OpId) (name : String)
  /-- A routine frees a buffer that it does not own. -/
  | invalidRealloc (op : OpId) (name : String)
  /-- A construct or a routine body does not consist of single blocks. -/
  | multiBlockRegion (op : OpId) (name : String)
  /-- A block does not end in a terminator. -/
  | missingTerminator (op : OpId) (name : String) (block : BlockId)
  /-- The result is not well shaped. -/
  | verification (defect : ShapeError)
deriving DecidableEq

namespace Rejection

/-- How a text begins that concerns an operation. -/
def heading (name : String) (o : OpId) : String := s!"`{name}` ({o.label}): "

def message : Rejection → String
  | crossLoopRelease o name =>
    heading name o ++ "can't implicitly capture across loop boundaries; " ++
      "use an explicit iter arg instead"
  | captureWithoutElse o name =>
    heading name o ++ "cannot implicitly capture from an if without else"
  | releasedValueNotYielded o name v =>
    heading name o ++ s!"released value {v.label} not yielded on other branch"
  | missingIndicator o name v =>
    heading name o ++ s!"no ownership indicator found for {v.label}; same value released twice?"
  | unknownRegionOwnership o name =>
    heading name o ++ "block unexpectedly released or returned an alloc"
  | unknownRegionReturnsBuffer o name =>
    heading name o ++ "operation with opaque regions must not return a buffer"
  | invalidRealloc o name =>
    heading name o ++ "invalid realloc of a buffer the routine does not own"
  | multiBlockRegion o name =>
    heading name o ++ "regions with more than one block are not supported"
  | missingTerminator o name b => heading name o ++ s!"block {b.label} has no terminator"
  | verification defect => "verification failed: " ++ defect.message

def code : Rejection → String
  | crossLoopRelease .. => "E7001"
  | captureWithoutElse .. => "E7002"
  | releasedValueNotYielded .. => "E7003"
  | missingIndicator .. => "E7004"
  | unknownRegionOwnership .. => "E7005"
  | unknownRegionReturnsBuffer .. => "E7006"
  | invalidRealloc .. => "E7007"
  | multiBlockRegion .. => "E7008"
  | missingTerminator .. => "E7009"
  | verification _ => "E7010"

/-- The operation at which the reason was found. -/
def op? : Rejection → Option OpId
  | crossLoopRelease o _ => some o
  | captureWithoutElse o _ => some o
  | releasedValueNotYielded o _ _ => some o
  | missingIndicator o _ _ => some o
  | unknownRegionOwnership o _ => some o
  | unknownRegionReturnsBuffer o _ => some o
  | invalidRealloc o _ => some o
  | multiBlockRegion o _ => some o
  | missingTerminator o _ _ => some o
  | verification defect => defect.op?

end Rejection

end BufferOwnership
