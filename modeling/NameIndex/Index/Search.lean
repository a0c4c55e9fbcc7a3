import NameIndex.Index.Basic

/-!
# Searching by name

A search starts at the heads of the highest level. At each level it goes along as far as the names
stay below the one sought, and then down. It remembers where it left each level: those are the
entries that a new entry of that name would follow.

Going along is given `fuel`. Within a level no entry is left for itself again on the way to an end,
so a search that ends at all makes at most one step per slot, and one down, at each level.
-/

namespace NameIndex

/-- What a search finds. -/
structure Predecessors where
  /-- The cookie last passed at each level in use, null for none. -/
  cookies : List Cookie
  /-- Whether an entry of the name itself was met. -/
  found : Bool
deriving DecidableEq

namespace Predecessors

/-- The cookie last passed at a level; levels not yet in use pass nothing. -/
def before (p : Predecessors) (level : Nat) : Cookie := p.cookies.getD level .null

end Predecessors

/-- Where a search goes next. -/
inductive Move where
  /-- On to the next entry of the level. -/
  | along
  /-- Down one level, after meeting the entry sought or not. -/
  | down (hit : Bool)
deriving DecidableEq

namespace Index

variable {G V : Type}

/-- How a search for `name` goes on before the entry `next` of a level. With a non-null `wanted`
an equal name is met only under that cookie. -/
def move (ix : Index G V) (name : Name) (wanted : Cookie) (level : Nat) (next : Cookie) :
    Except Fault Move :=
  if next = .null then .ok (.down false)
  else do
    let e ← ix.resolve next
    if name < e.name then .ok (.down false)
    else if e.name = name ∧ (wanted = .null ∨ wanted = next) then .ok (.down true)
    else if e.height ≤ level then .error (.corrupt (.tooLow next level e.height))
    else .ok .along

/-- The rest of a search that stands at `holder` with `level` levels to go; `passed` and `found`
are what the levels above have given. -/
def descend (ix : Index G V) (name : Name) (wanted : Cookie) :
    (fuel level : Nat) → (holder : Cookie) → (passed : List Cookie) → (found : Bool) →
      Except Fault Predecessors
  | _, 0, _, passed, found => .ok ⟨passed, found⟩
  | 0, _ + 1, _, _, _ => .error .endless
  | fuel + 1, level + 1, holder, passed, found => do
    let next ← ix.successor holder level
    match ← ix.move name wanted level next with
    | .along => ix.descend name wanted fuel (level + 1) next passed found
    | .down hit =>
      if maxLevels ≤ level then .error (.outOfRange maxLevels level)
      else ix.descend name wanted fuel level holder (holder :: passed) (found || hit)

/-- Searches for the place of a name in at most `fuel` steps. -/
def searchWithin (ix : Index G V) (fuel : Nat) (name : Name) (wanted : Cookie) :
    Except Fault Predecessors :=
  ix.descend name wanted fuel ix.heads.length .null [] false

/-- Searches for the place of a name. -/
def search (ix : Index G V) (name : Name) (wanted : Cookie) : Except Fault Predecessors :=
  ix.searchWithin (ix.heads.length * (ix.capacity + 1)) name wanted

end Index

end NameIndex
