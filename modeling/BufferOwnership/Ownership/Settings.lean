/-!
# Settings

What can be chosen about the threading of ownership.
-/

namespace BufferOwnership

/-- The choices for a run. -/
structure Settings where
  /-- Hand the indicator of an operand to a construct that is the operand's last use. -/
  transfer : Bool := true
  /-- Release a buffer right after its last use, and not only at the end of its block. -/
  hoist : Bool := true
  /-- Treat routines side by side. How such a run is scheduled, and which routines it still treats
  after a rejection, is left out here: `runProgram` goes through them in order either way. -/
  parallel : Bool := true
  /-- Leave the remaining routines alone once one is rejected. -/
  failFast : Bool := false
  /-- Check the shape of the result. -/
  verify : Bool := true
deriving DecidableEq

/-- The settings that treat one routine after the other. -/
def Settings.sequential : Settings := { parallel := false }

end BufferOwnership
