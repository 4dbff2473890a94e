import BufferOwnership.Routine.Nesting

/-!
# Outlines and printed text

An *outline* is what the printed text of a routine shows: for each operation its name, results
with their types, operands and nested blocks, and nothing about links or erased operations. A
routine is printed by taking its outline and rendering that.
-/

namespace BufferOwnership

structure TypedValue where
  id : ValueId
  ty : Ty
deriving DecidableEq

/-- The operands of an operation as they are shown: those of a retain in two groups. -/
inductive OperandList where
  | plain (values : List ValueId)
  | grouped (retained owned : List ValueId)
deriving DecidableEq

mutual

inductive OpOutline where
  | mk (name : String) (results : List TypedValue) (operands : OperandList)
    (regions : List RegionOutline)

inductive RegionOutline where
  | mk (blocks : List BlockOutline)

inductive BlockOutline where
  | mk (id : BlockId) (args : List TypedValue) (ops : List OpOutline)

end

structure RoutineOutline where
  name : String
  params : List TypedValue
  body : List OpOutline

/-! ## Taking the outline -/

/-- The operands of an operation as they are shown. A retain that announces more retained values
than it has operands shows all operands as retained. -/
def Op.operandList (data : Op) : OperandList :=
  match data.kind with
  | .retain count => .grouped (data.operands.take count) (data.operands.drop count)
  | _ => .plain data.operands

namespace Routine

def typed (r : Routine) (v : ValueId) : Except Fault TypedValue :=
  return { id := v, ty := ← r.typeOf v }

/-- The outline of a block, given how to take that of its operations. -/
def outlineBlock (r : Routine) (inner : OpId → Except Fault OpOutline) (b : BlockId) :
    Except Fault BlockOutline := do
  let data ← r.block b
  return .mk b (← data.args.mapM r.typed) (← data.ops.mapM inner)

/-- The outline of a region, given how to take that of its operations. -/
def outlineRegion (r : Routine) (inner : OpId → Except Fault OpOutline) (g : RegionId) :
    Except Fault RegionOutline := do
  return .mk (← (← r.region g).blocks.mapM (r.outlineBlock inner))

/-- The outline of an operation whose nesting is less deep than the fuel. -/
def outlineWithin (r : Routine) : Nat → OpId → Except Fault OpOutline
  | 0, o => .error (.endless o)
  | fuel + 1, o => do
    let data ← r.op o
    return .mk data.kind.name (← data.results.mapM r.typed) data.operandList
      (← data.regions.mapM (r.outlineRegion (r.outlineWithin fuel)))

/-- The outline of a routine: its parameters and the operations of its entry block. -/
def outline (r : Routine) : Except Fault RoutineOutline := do
  let entry ← r.block (← r.entryBlock)
  return {
    name := ← r.name
    params := ← entry.args.mapM r.typed
    body := ← entry.ops.mapM (r.outlineWithin r.depthBound) }

end Routine

/-! ## Rendering -/

namespace Outline

/-- Two blanks for each level. -/
def indent : Nat → String
  | 0 => ""
  | depth + 1 => indent depth ++ "  "

def value (v : ValueId) : String := s!"%{v.index}"

def typedValue (v : TypedValue) : String := value v.id ++ ": " ++ v.ty.render

def commaSeparated (texts : List String) : String := ", ".intercalate texts

/-- Operands as they are written; a bar divides those of a retain. -/
def operands : OperandList → String
  | .plain values => commaSeparated (values.map value)
  | .grouped retained owned =>
    commaSeparated (retained.map value) ++ " | " ++ commaSeparated (owned.map value)

/-- The results in front of an operation. -/
def resultNames : List TypedValue → String
  | [] => ""
  | results => commaSeparated (results.map fun v => value v.id) ++ " = "

/-- The types of the results behind an operation. -/
def resultTypes : List TypedValue → String
  | [] => ""
  | results => " : " ++ commaSeparated (results.map fun v => v.ty.render)

def blockArgs : List TypedValue → String
  | [] => ""
  | args => "(" ++ commaSeparated (args.map typedValue) ++ ")"

mutual

/-- The text of an operation at a depth: one line, or several if it has regions with blocks. -/
def op (depth : Nat) : OpOutline → String
  | .mk name results values nested =>
    indent depth ++ resultNames results ++ name ++ "(" ++ operands values ++ ")"
      ++ resultTypes results ++ regions depth " " nested ++ "\n"

def ops (depth : Nat) : List OpOutline → String
  | [] => ""
  | first :: rest => op depth first ++ ops depth rest

/-- The texts of regions, each after a separator: a given one first, then a comma. -/
def regions (depth : Nat) (separator : String) : List RegionOutline → String
  | [] => ""
  | first :: rest => separator ++ region depth first ++ regions depth ", " rest

/-- The text of a region in braces, which closes at the depth of its operation. -/
def region (depth : Nat) : RegionOutline → String
  | .mk [] => "\x7b\x7d"
  | .mk (first :: rest) =>
    "\x7b\n" ++ block depth first ++ blocks depth rest ++ indent depth ++ "\x7d"

/-- The text of a block: a heading at the depth of the operation around it, then its operations. -/
def block (depth : Nat) : BlockOutline → String
  | .mk id args inner =>
    indent depth ++ s!"^bb{id.index}" ++ blockArgs args ++ ":\n" ++ ops (depth + 1) inner

def blocks (depth : Nat) : List BlockOutline → String
  | [] => ""
  | first :: rest => block depth first ++ blocks depth rest

end

end Outline

def RoutineOutline.render (outline : RoutineOutline) : String :=
  "func @" ++ outline.name ++ "(" ++
    Outline.commaSeparated (outline.params.map Outline.typedValue) ++ ") \x7b\n" ++
    Outline.ops 1 outline.body ++ "\x7d\n"

def Routine.render (r : Routine) : Except Fault String :=
  return (← r.outline).render

end BufferOwnership
