import BufferOwnership.Ident

/-!
# Alias classes

Values that may denote the same buffer are kept in one class, and so are a buffer and its
indicator. Classes only ever grow together. Each class is a tree of links that lead up to its
*leader*; a value that was never mentioned is alone in its class and its own leader.

Two trees are joined by rank: the leader of the lower rank comes under the other, and of two equal
ranks the first one stays leader and gains one. Finding a leader on the way to a join shortens the
links that were followed.

Beside the classes stands the indicator that was last recorded for a buffer.
-/

namespace BufferOwnership

/-- The classes of values that may alias, and the recorded indicators. -/
structure AliasClasses where
  /-- For each registered value the next one on the way to its leader. -/
  links : Array ValueId
  /-- For each registered value a bound on the length of the ways that end there. -/
  ranks : Array Nat
  /-- The recorded indicators, by buffer. -/
  indicators : List (ValueId × ValueId)
deriving DecidableEq

namespace AliasClasses

def empty : AliasClasses := ⟨#[], #[], []⟩

/-! ## Looking up -/

/-- The next value on the way to the leader; leaders and unknown values lead to themselves. -/
def link (c : AliasClasses) (v : ValueId) : ValueId := c.links.getD v.index v

/-- Follows links, as many as the fuel allows. -/
def climb (c : AliasClasses) : Nat → ValueId → ValueId
  | 0, v => v
  | fuel + 1, v => if c.link v = v then v else c.climb fuel (c.link v)

/-- The leader of the class of a value. No way up is longer than the table of links. -/
def leader (c : AliasClasses) (v : ValueId) : ValueId := c.climb c.links.size v

def same (c : AliasClasses) (a b : ValueId) : Bool := c.leader a = c.leader b

def rank (c : AliasClasses) (v : ValueId) : Nat := c.ranks.getD v.index 0

/-- The indicator recorded for exactly this buffer. -/
def indicatorOf? (c : AliasClasses) (buffer : ValueId) : Option ValueId :=
  c.indicators.lookup buffer

/-! ## Joining -/

/-- Makes room for a value: it, and all values before it, become registered. -/
def register (c : AliasClasses) (v : ValueId) : AliasClasses :=
  let added := v.index + 1 - c.links.size
  { c with
    links := c.links ++ ((List.range added).map fun i => ⟨c.links.size + i⟩).toArray
    ranks := c.ranks ++ Array.replicate added 0 }

/-- Follows links upwards, two at a time, and makes each value passed skip the one in between. -/
def shorten : Nat → AliasClasses → ValueId → ValueId × AliasClasses
  | 0, c, v => (v, c)
  | fuel + 1, c, v =>
    if c.link v = v then (v, c)
    else
      let above := c.link (c.link v)
      shorten fuel { c with links := c.links.setIfInBounds v.index above } above

/-- Registers a value and finds its leader, shortening the way there. -/
def find (c : AliasClasses) (v : ValueId) : ValueId × AliasClasses :=
  let c := c.register v
  shorten c.links.size c v

/-- Ranks stop here, far above what any number of values can reach. -/
def rankLimit : Nat := 255

/-- Puts one of two different leaders under the other. -/
def attach (c : AliasClasses) (a b : ValueId) : AliasClasses :=
  if c.rank a < c.rank b then
    { c with links := c.links.setIfInBounds a.index b }
  else
    { c with
      links := c.links.setIfInBounds b.index a
      ranks :=
        if c.rank a = c.rank b then
          c.ranks.setIfInBounds a.index (min (c.rank a + 1) rankLimit)
        else c.ranks }

def union (c : AliasClasses) (a b : ValueId) : AliasClasses :=
  let (leaderA, c) := c.find a
  let (leaderB, c) := c.find b
  if leaderA = leaderB then c else c.attach leaderA leaderB

/-- Joins the classes of each of some pairs, in order. -/
def unionAll (c : AliasClasses) (pairs : List (ValueId × ValueId)) : AliasClasses :=
  pairs.foldl (fun c (a, b) => c.union a b) c

/-! ## Indicators -/

/-- Records the indicator of a buffer, in place of an earlier one, and joins the two. -/
def setIndicator (c : AliasClasses) (buffer indicator : ValueId) : AliasClasses :=
  { c with
    indicators := (buffer, indicator) :: c.indicators.filter fun entry => entry.1 ≠ buffer
    }.union buffer indicator

/-- Forgets the indicator of a buffer. The classes stay as they are. -/
def dropIndicator (c : AliasClasses) (buffer : ValueId) : AliasClasses :=
  { c with indicators := c.indicators.filter fun entry => entry.1 ≠ buffer }

end AliasClasses

end BufferOwnership
