import BufferOwnership.Ident
import BufferOwnership.Ty

/-!
# Kinds of operations

What an operation does is fixed by its kind together with its operands and results. This module
lists the kinds, says which of them end a block, which are structured control flow, and which
values an operation allocates or frees.
-/

namespace BufferOwnership

/-- An effect as an operation declares it, by the position of a result or operand. -/
inductive EffectSpec where
  | allocatesResult (slot : Nat)
  | freesOperand (slot : Nat)
deriving DecidableEq

/-- An effect on a value, once the declared position has been looked up. -/
inductive Effect where
  | allocate (value : ValueId)
  | free (value : ValueId)
deriving DecidableEq

/-- Structured control flow: alternatives of which one runs, or a body that runs repeatedly. -/
inductive ConstructKind where
  | conditional
  | loop
deriving DecidableEq

/-- What an operation is. The last three named kinds handle indicators: `own` makes one for a
fresh buffer, `retain n` turns the indicators after its first `n` operands into one indicator per
operand among these `n`, and `null` makes one that owns nothing. -/
inductive OpKind where
  | routine (name : String)
  | ret
  | alloc
  | dealloc
  | realloc
  | conditional
  | forLoop
  | whileLoop
  | yield
  | condition
  | own
  | retain (count : Nat)
  | null
  | generic (name : String) (effects : List EffectSpec)
deriving DecidableEq

namespace OpKind

/-- The name by which printed routines and diagnostics call an operation. -/
def name : OpKind → String
  | routine _ => "func"
  | ret => "return"
  | alloc => "alloc"
  | dealloc => "dealloc"
  | realloc => "realloc"
  | conditional => "if"
  | forLoop => "for"
  | whileLoop => "while"
  | yield => "yield"
  | condition => "condition"
  | own => "own"
  | retain _ => "retain"
  | null => "null"
  | generic name _ => name

/-- The operations that hand control, and values, to the end of their block. -/
def isTerminator : OpKind → Bool
  | ret | yield | condition => true
  | _ => false

/-- The control flow of an operation, if it is a structured construct. -/
def construct? : OpKind → Option ConstructKind
  | conditional => some .conditional
  | forLoop | whileLoop => some .loop
  | _ => none

/-- The effects that a kind declares. A reallocation frees before it allocates. -/
def effectSpecs : OpKind → List EffectSpec
  | alloc => [.allocatesResult 0]
  | dealloc => [.freesOperand 0]
  | realloc => [.freesOperand 0, .allocatesResult 0]
  | generic _ effects => effects
  | _ => []

end OpKind

/-- The effect that a declaration has on operands and results; none if the position is not there. -/
def EffectSpec.resolve? (operands results : List ValueId) : EffectSpec → Option Effect
  | allocatesResult slot => results[slot]?.map .allocate
  | freesOperand slot => operands[slot]?.map .free

/-- The effects of an operation with given operands and results, in the order of declaration. -/
def OpKind.effects (kind : OpKind) (operands results : List ValueId) : List Effect :=
  kind.effectSpecs.filterMap (EffectSpec.resolve? operands results)

def Effect.allocated? : Effect → Option ValueId
  | allocate v => some v
  | free _ => none

def Effect.freed? : Effect → Option ValueId
  | allocate _ => none
  | free v => some v

end BufferOwnership
