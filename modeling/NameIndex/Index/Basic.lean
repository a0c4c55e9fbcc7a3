import NameIndex.Config
import NameIndex.CookieTable
import NameIndex.Level

/-!
# The index

An index keeps entries in a cookie table and threads them on levels. Level 0 passes through all
entries in name order, and each higher level through those that are tall enough for it; `heads`
holds the first cookie of every level, an entry's `links` its successor at each of its levels. Back
links and the tail lead through level 0 the other way.

The fields are plain data that need not agree with each other: the operations notice the
disagreements that would lead them astray and stop with a `Fault`.
-/

namespace NameIndex

/-- Entries found by cookie in a table and by name along levels. -/
structure Index (G V : Type) where
  /-- The stored entries. -/
  table : CookieTable V
  /-- The first entry of each level in use. -/
  heads : List Cookie
  /-- The entry with the greatest name. -/
  tail : Cookie
  /-- The number of the last cookie given out. -/
  lastCookie : Nat
  /-- The number of entries. -/
  count : Nat
  /-- The number of slots that the table may grow to. -/
  maxCapacity : Nat
  /-- The source of level draws. -/
  source : G
deriving DecidableEq

namespace Index

variable {G V : Type}

/-- An empty index, if its sizes can be rounded up and there is room for its table. Without a
configured seed the draws start from `entropy`. -/
def create [LevelSource G] (config : Config) (entropy : UInt64) : Except Fault (Index G V) := do
  let (first, most) ← config.capacities
  let table ← CookieTable.withCapacity first
  return {
    table
    heads := []
    tail := .null
    lastCookie := 0
    count := 0
    maxCapacity := most
    source := LevelSource.seeded (config.seed.getD entropy) }

/-- Whether the index counts no entry. -/
def isEmpty (ix : Index G V) : Bool := ix.count == 0

/-- The number of slots. -/
def capacity (ix : Index G V) : Nat := ix.table.capacity

/-- The number of levels in use. -/
def activeLevels (ix : Index G V) : Nat := ix.heads.length

/-- The entry with the least name, as level 0 has it. -/
def front (ix : Index G V) : Cookie := ix.heads.headD .null

/-- The entry that a link leads to. -/
def resolve (ix : Index G V) (c : Cookie) : Except Fault (Entry V) :=
  match ix.table.get? c with
  | some e => .ok e
  | none => .error (.corrupt (.unknownLink c))

/-- The entry that a link leads to, unless the link is null. -/
def follow (ix : Index G V) (c : Cookie) : Except Fault (Option (Entry V)) :=
  if c = .null then .ok none else some <$> ix.resolve c

/-- The cookie after `holder` at a level, where the null cookie holds the heads. -/
def successor (ix : Index G V) (holder : Cookie) (level : Nat) : Except Fault Cookie :=
  if holder = .null then
    match ix.heads[level]? with
    | some c => .ok c
    | none => .error (.outOfRange ix.heads.length level)
  else do
    match (← ix.resolve holder).links[level]? with
    | some c => .ok c
    | none => .error (.corrupt (.missingLink holder level))

/-- Makes `next` the cookie after `holder` at a level, if `holder` has that level. -/
def setSuccessor (ix : Index G V) (holder : Cookie) (level : Nat) (next : Cookie) : Index G V :=
  if holder = .null then { ix with heads := ix.heads.set level next }
  else { ix with
    table := ix.table.modify holder fun e => { e with links := e.links.set level next } }

/-- Makes `prev` the cookie before `c`, if `c` is stored. -/
def setPrev (ix : Index G V) (c prev : Cookie) : Index G V :=
  { ix with table := ix.table.modify c fun e => { e with prev } }

end Index

/-- The first of an entry's links, which reads beyond the end of an entry without levels. -/
def Entry.next {V : Type} (e : Entry V) : Except Fault Cookie :=
  match e.links with
  | c :: _ => .ok c
  | [] => .error (.outOfRange 0 0)

end NameIndex
