import BufferOwnership.Ownership.Escape
import BufferOwnership.Ownership.Rejection
import BufferOwnership.Routine.Emit

/-!
# Sessions

While ownership is threaded through a routine, a session holds the routine as it is by then,
the alias classes found so far, and a tally of what was inserted. A `Pass` is a step of
this work: it changes the session and gives an answer, or ends the work with a failure.
-/

namespace BufferOwnership

/-- How many operations of each kind were inserted, and how many operands carry an indicator. -/
structure Tally where
  owns : Nat := 0
  retains : Nat := 0
  nulls : Nat := 0
  transfers : Nat := 0
deriving DecidableEq

namespace Tally

def add (a b : Tally) : Tally where
  owns := a.owns + b.owns
  retains := a.retains + b.retains
  nulls := a.nulls + b.nulls
  transfers := a.transfers + b.transfers

instance : Add Tally := ⟨add⟩

end Tally

/-- The state of the work on one routine. -/
structure Session where
  routine : Routine
  aliases : AliasClasses
  tally : Tally

def Session.start (r : Routine) : Session where
  routine := r
  aliases := .empty
  tally := {}

/-- What a block, a construct or an operation did to ownership. `released` holds the values that
it released and did not own itself; `acquired` the indicators that it leaves behind, for a block
one for each escaping buffer, in order. -/
structure Outcome where
  released : ValueSet
  acquired : List ValueId
deriving DecidableEq

def Outcome.none : Outcome where
  released := ∅
  acquired := []

/-- A step of the work on a routine. -/
abbrev Pass := StateT Session (Except (Failure Rejection))

namespace Pass

variable {α β : Type} {s s' : Session} {query : Routine → Except Fault α} {a : α} {f : α → Pass β}
variable {b : β}

def ask (query : Routine → Except Fault α) : Pass α := fun s =>
  match query s.routine with
  | .ok a => .ok (a, s)
  | .error fault => .error (.fault fault)

def edit (change : Edit α) : Pass α := fun s =>
  match change s.routine with
  | .ok (a, r) => .ok (a, { s with routine := r })
  | .error fault => .error (.fault fault)

/-- The alias classes, which a question leaves as they are. A lookup could shorten a path in the
tables, but leaders, ranks and recorded indicators stay as they were by
`AliasClasses.View.call_question`, and by `AliasClasses.Paired.view_call` every later answer
depends on those alone. -/
def aliases : Pass AliasClasses := fun s => .ok (s.aliases, s)

def modifyAliases (f : AliasClasses → AliasClasses) : Pass Unit := fun s =>
  .ok ((), { s with aliases := f s.aliases })

def count (f : Tally → Tally) : Pass Unit := fun s =>
  .ok ((), { s with tally := f s.tally })

def reject (reason : Rejection) : Pass α := fun _ => .error (.rejected reason)

/-! ## What a successful step says -/

/-- Two steps succeed if and only if the second succeeds in the session that the first leaves. -/
theorem bind_eq_ok {x : Pass α} :
    (x >>= f) s = .ok (b, s') ↔ ∃ a mid, x s = .ok (a, mid) ∧ f a mid = .ok (b, s') := by
  show (x s >>= fun p => f p.1 p.2) = .ok (b, s') ↔ _
  rw [BufferOwnership.bind_eq_ok]
  exact ⟨fun ⟨p, hx, hf⟩ => ⟨p.1, p.2, hx, hf⟩, fun ⟨a, mid, hx, hf⟩ => ⟨(a, mid), hx, hf⟩⟩

theorem pure_eq_ok {b : α} : (pure a : Pass α) s = .ok (b, s') ↔ a = b ∧ s = s' := by
  show (Except.ok (a, s) : Except (Failure Rejection) (α × Session)) = .ok (b, s') ↔ _
  simp

theorem ask_eq_ok : ask query s = .ok (a, s') ↔ query s.routine = .ok a ∧ s = s' := by
  unfold ask
  split <;> simp_all

theorem ask_bind_eq_ok : (ask query >>= f) s = .ok (b, s') ↔
      ∃ a, query s.routine = .ok a ∧ f a s = .ok (b, s') := by
  rw [bind_eq_ok]
  simp only [ask_eq_ok]
  exact ⟨fun ⟨a, _, ⟨ha, rfl⟩, h⟩ => ⟨a, ha, h⟩, fun ⟨a, ha, h⟩ => ⟨a, s, ⟨ha, rfl⟩, h⟩⟩

theorem edit_eq_ok {change : Edit α} :
    edit change s = .ok (a, s') ↔
      ∃ r, change s.routine = .ok (a, r) ∧ s' = { s with routine := r } := by
  unfold edit
  split
  · rename_i b r h
    rw [h]
    constructor
    · intro heq
      cases heq
      exact ⟨r, rfl, rfl⟩
    · rintro ⟨r', heq, rfl⟩
      cases heq
      rfl
  · simp_all

theorem reject_ne_ok {reason : Rejection} : reject reason s ≠ .ok (a, s') := nofun

/-! ## Inserting operations on indicators -/

/-- Makes the indicator of a fresh buffer and records it. -/
def own (point : InsertPoint) (buffer : ValueId) : Pass ValueId := do
  let indicator ← edit (Emit.own point buffer)
  modifyAliases (·.setIndicator buffer indicator)
  count fun t => { t with owns := t.owns + 1 }
  return indicator

/-- Makes an indicator for each fresh buffer, all after one another at one place. -/
def ownAll (point : InsertPoint) : List ValueId → Pass (List ValueId)
  | [] => return []
  | buffer :: rest => do
    let indicator ← own point buffer
    return indicator :: (← ownAll point rest)

def retain (point : InsertPoint) (retained owned : List ValueId) : Pass OpId := do
  count fun t => { t with retains := t.retains + 1 }
  edit (Emit.retain point retained owned)

/-- Inserts an indicator that owns nothing. -/
def null (point : InsertPoint) : Pass ValueId := do
  count fun t => { t with nulls := t.nulls + 1 }
  edit (Emit.null point)

end Pass

end BufferOwnership
