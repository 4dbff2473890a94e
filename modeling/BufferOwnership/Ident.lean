/-!
# Identifiers

A routine keeps its values, operations, blocks and regions in four tables. Each entry is named
by its position in its table, and each table has an identifier type of its own, so that the
number of an operation is never taken for the number of a value.

Values are ordered by number; sets of values list their members in that order.
-/

namespace BufferOwnership

/-- Names a value: an operation's result or a block's argument. -/
structure ValueId where
  index : Nat
deriving DecidableEq

structure OpId where
  index : Nat
deriving DecidableEq

structure BlockId where
  index : Nat
deriving DecidableEq

/-- Names a region: a list of blocks nested in an operation. -/
structure RegionId where
  index : Nat
deriving DecidableEq

/-- The form in which diagnostics name a value. -/
def ValueId.label (v : ValueId) : String := s!"Value({v.index})"

def OpId.label (o : OpId) : String := s!"Op({o.index})"

def BlockId.label (b : BlockId) : String := s!"Block({b.index})"

def RegionId.label (g : RegionId) : String := s!"Region({g.index})"

instance : LT ValueId := ⟨fun a b => a.index < b.index⟩

instance (a b : ValueId) : Decidable (a < b) :=
  inferInstanceAs (Decidable (a.index < b.index))

end BufferOwnership
