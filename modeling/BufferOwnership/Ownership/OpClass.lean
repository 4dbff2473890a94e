import BufferOwnership.Routine.Basic

/-!
# Classes of operations

How the threading of ownership treats an operation depends on which of five classes it is in.
Being a construct comes before having effects, and that before having regions.
-/

namespace BufferOwnership

/-- What an operation is to the threading of ownership. -/
inductive OpClass where
  /-- Structured control flow. -/
  | construct (kind : ConstructKind)
  /-- Allocates or frees buffers. -/
  | effects (allocated freed : List ValueId)
  /-- The body of a routine. -/
  | routine
  /-- Has regions about whose control flow nothing is known. -/
  | unknownRegions
  /-- Anything else. -/
  | plain
deriving DecidableEq

def Op.allocated (data : Op) : List ValueId :=
  (data.kind.effects data.operands data.results).filterMap Effect.allocated?

def Op.freed (data : Op) : List ValueId :=
  (data.kind.effects data.operands data.results).filterMap Effect.freed?

def Op.classify (data : Op) : OpClass :=
  match data.kind.construct? with
  | some kind => .construct kind
  | none =>
    if !data.allocated.isEmpty || !data.freed.isEmpty then
      .effects data.allocated data.freed
    else
      match data.kind with
      | .routine _ => .routine
      | _ => if data.regions.isEmpty then .plain else .unknownRegions

end BufferOwnership
