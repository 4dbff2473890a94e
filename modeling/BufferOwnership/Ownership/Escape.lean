import BufferOwnership.Alias.Classes
import BufferOwnership.ValueSet

/-!
# Escapes

The buffers that leave a block through its terminator are grouped by alias class, together with
the owned indicators of that class. A group that holds one buffer and one indicator needs nothing:
the indicator leaves with the buffer. Any other group needs a retain.
-/

namespace BufferOwnership

/-- The escaping values of one alias class, with their positions, and its owned indicators. -/
structure EscapeGroup where
  leader : ValueId
  escaping : List (Nat × ValueId)
  owned : List ValueId
deriving DecidableEq

/-- One buffer escapes and one indicator is there for it. -/
def EscapeGroup.isDirect (group : EscapeGroup) : Bool :=
  group.owned.length = 1 && group.escaping.length = 1

namespace AliasClasses

/-- The group of the class that has a given leader. -/
def escapeGroup (c : AliasClasses) (escaping : List ValueId) (owned : ValueSet)
    (leader : ValueId) : EscapeGroup where
  leader
  escaping := escaping.zipIdx.filterMap fun (v, position) =>
    if c.leader v = leader then some (position, v) else none
  owned := owned.toList.filter fun indicator => c.leader indicator = leader

/-- The leaders of values, each once, in the order of first appearance. -/
def leaders (c : AliasClasses) (values : List ValueId) : List ValueId :=
  (values.map c.leader).eraseDups

/-- Groups escaping values by class. Groups come in the order of their first value, and owned
indicators of classes from which nothing escapes come into none. -/
def planEscapes (c : AliasClasses) (escaping : List ValueId) (owned : ValueSet) :
    List EscapeGroup :=
  (c.leaders escaping).map (c.escapeGroup escaping owned)

end AliasClasses

end BufferOwnership
