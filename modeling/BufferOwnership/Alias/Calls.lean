import BufferOwnership.Alias.Classes

/-!
# Calls on alias classes

Alias classes as a stateful service: a sequence of calls, each with an answer. Asking for a
leader registers the value and shortens its way up, so that even a question changes the state; no
later answer shows it.
-/

namespace BufferOwnership

namespace AliasClasses

/-- A question to, or a change of, alias classes. -/
inductive Call where
  | union (a b : ValueId)
  | equivalent (a b : ValueId)
  | leader (a : ValueId)
  | setIndicator (buffer indicator : ValueId)
  | indicatorOf (buffer : ValueId)
  | takeIndicator (buffer : ValueId)
deriving DecidableEq

inductive Answer where
  | done
  | truth (b : Bool)
  | value (v : ValueId)
  | indicator (i? : Option ValueId)
deriving DecidableEq

/-- Carries out a call. A value is equivalent to itself, and asking so changes nothing. -/
def call (c : AliasClasses) : Call → Answer × AliasClasses
  | .union a b => (.done, c.union a b)
  | .equivalent a b =>
    if a = b then (.truth true, c)
    else
      let (leaderA, c) := c.find a
      let (leaderB, c) := c.find b
      (.truth (leaderA = leaderB), c)
  | .leader a =>
    let (leader, c) := c.find a
    (.value leader, c)
  | .setIndicator buffer indicator => (.done, c.setIndicator buffer indicator)
  | .indicatorOf buffer => (.indicator (c.indicatorOf? buffer), c)
  | .takeIndicator buffer => (.indicator (c.indicatorOf? buffer), c.dropIndicator buffer)

/-- Carries out calls one after the other, and collects the answers. -/
def run (c : AliasClasses) : List Call → List Answer × AliasClasses
  | [] => ([], c)
  | call :: rest =>
    let (answer, c) := c.call call
    let (answers, c) := c.run rest
    (answer :: answers, c)

end AliasClasses

end BufferOwnership
