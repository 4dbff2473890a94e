import BufferOwnership.Ownership.Session
import BufferOwnership.Ownership.Settings

/-!
# Where ownership ends

Two questions about the order of operations in a block: how early a buffer can be released, and
whether an operation is the last one to touch a value.
-/

namespace BufferOwnership

namespace Routine

/-- Goes backwards from an operation past those that do not touch a value that passes the test. -/
def earliestFrom (r : Routine) (test : ValueId → Bool) : Nat → OpId → Except Fault OpId
  | 0, anchor => .error (.endless anchor)
  | fuel + 1, anchor => do
    match ← r.prevOp? anchor with
    | none => return anchor
    | some prev =>
      if ← r.touches test prev true then
        return anchor
      else
        r.earliestFrom test fuel prev

/-- Does nothing from an operation on, to the end of its block, touch a value which passes the
test? Of the operation `first` itself the operands do not count. -/
def untouchedFrom (r : Routine) (test : ValueId → Bool) (first : OpId) :
    Nat → OpId → Except Fault Bool
  | 0, current => .error (.endless current)
  | fuel + 1, current => do
    if ← r.touches test current (current != first) then
      return false
    else
      match ← r.nextOp? current with
      | none => return true
      | some next => r.untouchedFrom test first fuel next

/-- Is an operation the last one in its block to use a value, one of its operands? -/
def isLastUse (r : Routine) (aliases : AliasClasses) (o : OpId) (v : ValueId) :
    Except Fault Bool :=
  r.untouchedFrom (aliases.same v) o r.depthBound o

/-- The operation before which an indicator is to be released: the terminator, or the earliest
one such that no alias is touched from there on. -/
def releaseAnchor (r : Routine) (settings : Settings) (aliases : AliasClasses)
    (terminator : OpId) (indicator : ValueId) : Except Fault OpId :=
  if settings.hoist then
    r.earliestFrom (aliases.same indicator) r.depthBound terminator
  else
    return terminator

end Routine

end BufferOwnership
