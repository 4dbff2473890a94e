/-!
# Documents

The data model in which routines are stored: null, truth values, numbers, texts, lists, and
objects that map keys to documents. Objects are read by key, so the order of their fields carries
no meaning.
-/

namespace BufferOwnership

/-- A stored piece of data. The number `number m p` is `m` divided by ten to the power `p`, with
as many places as were written. -/
inductive Document where
  | null
  | bool (b : Bool)
  | number (mantissa : Int) (places : Nat)
  | text (s : String)
  | list (items : List Document)
  | object (fields : List (String × Document))
deriving Inhabited

namespace Document

/-- Stored numbers that count or name something fit into 32 bits. -/
def wordBound : Nat := Nat.pow 2 32

/-! ## Writing -/

def ofNat (n : Nat) : Document := number n 0

/-! ## Reading -/

/-- A natural number of at most 32 bits, written without places. -/
def nat? : Document → Option Nat
  | number (.ofNat n) 0 => if n < wordBound then some n else none
  | _ => none

def bool? : Document → Option Bool
  | bool b => some b
  | _ => none

def text? : Document → Option String
  | text s => some s
  | _ => none

/-- A list whose items can all be read. -/
def listOf? {α : Type} (read : Document → Option α) : Document → Option (List α)
  | list items => items.mapM read
  | _ => none

/-- The fields of a record: an object, or a list that gives the fields in their fixed order. -/
def record? (names : List String) : Document → Option (List (String × Document))
  | object fields => some fields
  | list items => if items.length = names.length then some (names.zip items) else none
  | _ => none

def object? : Document → Option (List (String × Document))
  | object fields => some fields
  | _ => none

/-- A tagged alternative: its name alone, or an object with the name as its only key. -/
def variant? : Document → Option (String × Option Document)
  | text tag => some (tag, none)
  | object [(tag, payload)] => some (tag, some payload)
  | _ => none

/-- Can this stand as the payload of an alternative that has none? -/
def isEmptyPayload : Option Document → Bool
  | none => true
  | some null => true
  | _ => false

end Document

end BufferOwnership
