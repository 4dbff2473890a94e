/-!
# Types of values

A value is a plain scalar, a buffer of scalars in memory, or an *ownership indicator*: the token
that says who has to release a buffer.
-/

namespace BufferOwnership

/-- The scalar types, which are also what buffers hold. -/
inductive ElemType where
  | i1 | i8 | i16 | i32 | i64
  | index
  | f16 | f32 | f64
deriving DecidableEq, Ord

def ElemType.name : ElemType → String
  | .i1 => "i1"
  | .i8 => "i8"
  | .i16 => "i16"
  | .i32 => "i32"
  | .i64 => "i64"
  | .index => "index"
  | .f16 => "f16"
  | .f32 => "f32"
  | .f64 => "f64"

/-- The type of a value. A buffer has one dimension of unknown extent per unit of rank. -/
inductive Ty where
  | scalar (elem : ElemType)
  | buffer (elem : ElemType) (rank : Nat)
  | ownership
deriving DecidableEq

namespace Ty

/-- Buffers are the values whose release is tracked. -/
def isBuffer : Ty → Bool
  | buffer .. => true
  | _ => false

def isOwnership : Ty → Bool
  | ownership => true
  | _ => false

/-- The scalar behind a type; an indicator has none. -/
def elem? : Ty → Option ElemType
  | scalar e => some e
  | buffer e _ => some e
  | ownership => none

/-- The extents in a buffer type: a question mark and a cross for each dimension. -/
def extents : Nat → String
  | 0 => ""
  | rank + 1 => extents rank ++ "?x"

def render : Ty → String
  | scalar e => e.name
  | buffer e rank => "buffer<" ++ extents rank ++ e.name ++ ">"
  | ownership => "ownership"

end Ty

end BufferOwnership
