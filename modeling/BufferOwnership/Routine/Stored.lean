import BufferOwnership.Document
import BufferOwnership.Routine.Basic

/-!
# The stored form of routines

A routine is stored as an object with one list per table and the number of its root. Alternatives
are stored under their name, identifiers as plain numbers. Reading looks fields up by name and
ignores those it does not know; a record may also be given as the list of its fields. An absent
parent of an operation reads as none.
-/

namespace BufferOwnership

open Document (ofNat)

/-! ## Types and kinds -/

namespace ElemType

/-- The name under which a scalar type is stored. -/
def tag : ElemType → String
  | i1 => "I1"
  | i8 => "I8"
  | i16 => "I16"
  | i32 => "I32"
  | i64 => "I64"
  | index => "Index"
  | f16 => "F16"
  | f32 => "F32"
  | f64 => "F64"

def ofTag? : String → Option ElemType
  | "I1" => some i1
  | "I8" => some i8
  | "I16" => some i16
  | "I32" => some i32
  | "I64" => some i64
  | "Index" => some index
  | "F16" => some f16
  | "F32" => some f32
  | "F64" => some f64
  | _ => none

def toDocument (e : ElemType) : Document := .text e.tag

def ofDocument? (d : Document) : Option ElemType := do
  let (tag, payload) ← d.variant?
  guard (Document.isEmptyPayload payload)
  ofTag? tag

end ElemType

namespace Ty

def toDocument : Ty → Document
  | scalar e => .object [("Scalar", e.toDocument)]
  | buffer e rank => .object [("Buffer", .object [("elem", e.toDocument), ("rank", ofNat rank)])]
  | ownership => .text "Ownership"

def ofDocument? (d : Document) : Option Ty := do
  match ← d.variant? with
  | ("Scalar", some payload) => return scalar (← ElemType.ofDocument? payload)
  | ("Buffer", some payload) =>
    let fields ← payload.object?
    return buffer (← (← fields.lookup "elem") |> ElemType.ofDocument?)
      (← (← fields.lookup "rank").nat?)
  | ("Ownership", payload) => if Document.isEmptyPayload payload then some ownership else none
  | _ => none

end Ty

namespace EffectSpec

def toDocument : EffectSpec → Document
  | allocatesResult slot => .object [("AllocatesResult", ofNat slot)]
  | freesOperand slot => .object [("FreesOperand", ofNat slot)]

def ofDocument? (d : Document) : Option EffectSpec := do
  match ← d.variant? with
  | ("AllocatesResult", some payload) => return allocatesResult (← payload.nat?)
  | ("FreesOperand", some payload) => return freesOperand (← payload.nat?)
  | _ => none

end EffectSpec

namespace OpKind

def toDocument : OpKind → Document
  | routine name => .object [("Func", .object [("name", .text name)])]
  | ret => .text "Return"
  | alloc => .text "Alloc"
  | dealloc => .text "Dealloc"
  | realloc => .text "Realloc"
  | conditional => .text "If"
  | forLoop => .text "For"
  | whileLoop => .text "While"
  | yield => .text "Yield"
  | condition => .text "Condition"
  | own => .text "Own"
  | retain count => .object [("Retain", .object [("num_retained", ofNat count)])]
  | null => .text "Null"
  | generic name effects =>
    .object [("Generic", .object
      [("name", .text name), ("effects", .list (effects.map EffectSpec.toDocument))])]

/-- The kind stored under a name alone. -/
def ofTag? : String → Option OpKind
  | "Return" => some ret
  | "Alloc" => some alloc
  | "Dealloc" => some dealloc
  | "Realloc" => some realloc
  | "If" => some conditional
  | "For" => some forLoop
  | "While" => some whileLoop
  | "Yield" => some yield
  | "Condition" => some condition
  | "Own" => some own
  | "Null" => some null
  | _ => none

def ofDocument? (d : Document) : Option OpKind := do
  match ← d.variant? with
  | ("Func", some payload) =>
    let fields ← payload.object?
    return routine (← (← fields.lookup "name").text?)
  | ("Retain", some payload) =>
    let fields ← payload.object?
    return retain (← (← fields.lookup "num_retained").nat?)
  | ("Generic", some payload) =>
    let fields ← payload.object?
    return generic (← (← fields.lookup "name").text?)
      (← (← fields.lookup "effects").listOf? EffectSpec.ofDocument?)
  | (tag, payload) => if Document.isEmptyPayload payload then ofTag? tag else none

end OpKind

/-! ## Identifiers -/

def ValueId.toDocument (v : ValueId) : Document := ofNat v.index

def OpId.toDocument (o : OpId) : Document := ofNat o.index

def BlockId.toDocument (b : BlockId) : Document := ofNat b.index

def RegionId.toDocument (g : RegionId) : Document := ofNat g.index

def ValueId.ofDocument? (d : Document) : Option ValueId := d.nat?.map .mk

def OpId.ofDocument? (d : Document) : Option OpId := d.nat?.map .mk

def BlockId.ofDocument? (d : Document) : Option BlockId := d.nat?.map .mk

def RegionId.ofDocument? (d : Document) : Option RegionId := d.nat?.map .mk

/-! ## Entries of the tables -/

namespace ValueOrigin

def toDocument : ValueOrigin → Document
  | result o index => .object [("OpResult", .object [("op", o.toDocument), ("index", ofNat index)])]
  | argument b index =>
    .object [("BlockArg", .object [("block", b.toDocument), ("index", ofNat index)])]

def ofDocument? (d : Document) : Option ValueOrigin := do
  match ← d.variant? with
  | ("OpResult", some payload) =>
    let fields ← payload.object?
    return result (← OpId.ofDocument? (← fields.lookup "op")) (← (← fields.lookup "index").nat?)
  | ("BlockArg", some payload) =>
    let fields ← payload.object?
    return argument (← BlockId.ofDocument? (← fields.lookup "block"))
      (← (← fields.lookup "index").nat?)
  | _ => none

end ValueOrigin

namespace Value

def toDocument (data : Value) : Document :=
  .object [("ty", data.ty.toDocument), ("def", data.origin.toDocument)]

def ofDocument? (d : Document) : Option Value := do
  let fields ← d.record? ["ty", "def"]
  return {
    ty := ← Ty.ofDocument? (← fields.lookup "ty")
    origin := ← ValueOrigin.ofDocument? (← fields.lookup "def") }

end Value

namespace Op

def parentToDocument : Option BlockId → Document
  | none => .null
  | some b => b.toDocument

/-- Reads the block that lists an operation; an absent or null field means none. -/
def parentOfDocument? : Option Document → Option (Option BlockId)
  | none => some none
  | some .null => some none
  | some d => (BlockId.ofDocument? d).map some

def toDocument (data : Op) : Document :=
  .object
    [("kind", data.kind.toDocument),
     ("operands", .list (data.operands.map ValueId.toDocument)),
     ("results", .list (data.results.map ValueId.toDocument)),
     ("regions", .list (data.regions.map RegionId.toDocument)),
     ("parent", parentToDocument data.parent),
     ("erased", .bool data.erased)]

def ofDocument? (d : Document) : Option Op := do
  let fields ← d.record? ["kind", "operands", "results", "regions", "parent", "erased"]
  return {
    kind := ← OpKind.ofDocument? (← fields.lookup "kind")
    operands := ← (← fields.lookup "operands").listOf? ValueId.ofDocument?
    results := ← (← fields.lookup "results").listOf? ValueId.ofDocument?
    regions := ← (← fields.lookup "regions").listOf? RegionId.ofDocument?
    parent := ← parentOfDocument? (fields.lookup "parent")
    erased := ← (← fields.lookup "erased").bool? }

end Op

namespace Block

def toDocument (data : Block) : Document :=
  .object
    [("args", .list (data.args.map ValueId.toDocument)),
     ("ops", .list (data.ops.map OpId.toDocument)),
     ("parent", data.parent.toDocument)]

def ofDocument? (d : Document) : Option Block := do
  let fields ← d.record? ["args", "ops", "parent"]
  return {
    args := ← (← fields.lookup "args").listOf? ValueId.ofDocument?
    ops := ← (← fields.lookup "ops").listOf? OpId.ofDocument?
    parent := ← RegionId.ofDocument? (← fields.lookup "parent") }

end Block

namespace Region

def toDocument (data : Region) : Document :=
  .object
    [("blocks", .list (data.blocks.map BlockId.toDocument)),
     ("parent", data.parent.toDocument)]

def ofDocument? (d : Document) : Option Region := do
  let fields ← d.record? ["blocks", "parent"]
  return {
    blocks := ← (← fields.lookup "blocks").listOf? BlockId.ofDocument?
    parent := ← OpId.ofDocument? (← fields.lookup "parent") }

end Region

/-! ## Routines -/

namespace Routine

/-- Stores a routine, erased operations included. -/
def toDocument (r : Routine) : Document :=
  .object
    [("values", .list (r.values.toList.map Value.toDocument)),
     ("ops", .list (r.ops.toList.map Op.toDocument)),
     ("blocks", .list (r.blocks.toList.map Block.toDocument)),
     ("regions", .list (r.regions.toList.map Region.toDocument)),
     ("root", r.root.toDocument)]

/-- Reads a stored routine. Nothing beyond the form is checked. -/
def ofDocument? (d : Document) : Option Routine := do
  let fields ← d.record? ["values", "ops", "blocks", "regions", "root"]
  return {
    values := (← (← fields.lookup "values").listOf? Value.ofDocument?).toArray
    ops := (← (← fields.lookup "ops").listOf? Op.ofDocument?).toArray
    blocks := (← (← fields.lookup "blocks").listOf? Block.ofDocument?).toArray
    regions := (← (← fields.lookup "regions").listOf? Region.ofDocument?).toArray
    root := ← OpId.ofDocument? (← fields.lookup "root") }

end Routine

end BufferOwnership
