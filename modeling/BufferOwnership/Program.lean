import BufferOwnership.Ownership.Threading

/-!
# Programs

A program is a list of routines. Ownership is threaded through each of them on its own. A
rejected routine does not hinder the others, unless the settings ask to stop there; the remaining
routines are then left as they are.
-/

namespace BufferOwnership

/-- What became of a routine. -/
inductive RoutineOutcome where
  | transformed (report : Report)
  | failed (reason : Rejection)
  | skipped
deriving DecidableEq

/-- A routine of a program after a run: its name, what became of it, and what it is now. How far the
work on a rejected routine got is left out: its entry has the routine that was given. -/
structure ProgramEntry where
  name : String
  outcome : RoutineOutcome
  routine : Routine
deriving DecidableEq

/-- The entries of a program's routines, in order. -/
structure ProgramReport where
  entries : List ProgramEntry
deriving DecidableEq

namespace RoutineOutcome

def isTransformed : RoutineOutcome → Bool
  | transformed _ => true
  | _ => false

/-- What was inserted into the routine. -/
def tally : RoutineOutcome → Tally
  | transformed report => report.tally
  | _ => {}

def failure? : RoutineOutcome → Option Rejection
  | failed reason => some reason
  | _ => none

end RoutineOutcome

namespace ProgramReport

def isSuccess (report : ProgramReport) : Bool :=
  report.entries.all fun entry => entry.outcome.isTransformed

/-- What was inserted into all routines together. -/
def tally (report : ProgramReport) : Tally :=
  report.entries.foldl (fun total entry => total + entry.outcome.tally) {}

/-- The names of the rejected routines, and why they were. -/
def errors (report : ProgramReport) : List (String × Rejection) :=
  report.entries.filterMap fun entry => entry.outcome.failure?.map fun reason =>
    (entry.name, reason)

end ProgramReport

/-- Threads ownership through one routine of a program. -/
def Routine.entry (r : Routine) (settings : Settings) : Except Fault ProgramEntry := do
  let name ← r.name
  match r.threadOwnership settings with
  | .ok (report, result) => return { name, outcome := .transformed report, routine := result }
  | .error (.rejected reason) => return { name, outcome := .failed reason, routine := r }
  | .error (.fault f) => .error f

/-- The entry of a routine that is left alone. -/
def Routine.skippedEntry (r : Routine) : Except Fault ProgramEntry :=
  return { name := ← r.name, outcome := .skipped, routine := r }

/-- Threads ownership through routines in order. Once one has been rejected, `skipping` holds if
the settings ask to stop there. -/
def runRoutines (settings : Settings) : (skipping : Bool) → List Routine →
    Except Fault (List ProgramEntry)
  | _, [] => return []
  | true, r :: rest => do
    let entry ← r.skippedEntry
    return entry :: (← runRoutines settings true rest)
  | false, r :: rest => do
    let entry ← r.entry settings
    let skipping := settings.failFast && entry.outcome.failure?.isSome
    return entry :: (← runRoutines settings skipping rest)

def runProgram (settings : Settings) (routines : List Routine) : Except Fault ProgramReport :=
  return { entries := ← runRoutines settings false routines }

end BufferOwnership
