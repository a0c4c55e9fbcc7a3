import NameIndex.Index.Query

/-!
# Cursors

A cursor stands for the entries between two cookies and gives them out one by one from either side.
The front goes on along level 0 and the back along the back links. The entry where the two meet is
given out once, from whichever side asks first, and leaves nothing behind it.
-/

namespace NameIndex

/-- One of the two sides that a cursor gives out entries from. -/
inductive Side where
  /-- The entry with the least name. -/
  | front
  /-- The entry with the greatest name. -/
  | back
deriving DecidableEq

/-- The entries from the cookie `front` to the cookie `back`, or none if both are null. -/
structure Cursor where
  /-- The first cookie. -/
  front : Cookie
  /-- The last cookie. -/
  back : Cookie
deriving DecidableEq

namespace Cursor

/-- The cursor of no entry. -/
def empty : Cursor := ⟨.null, .null⟩

/-- The cursor between two cookies, which is empty if one of them is null. -/
def between (front back : Cookie) : Cursor :=
  if front = .null ∨ back = .null then empty else ⟨front, back⟩

end Cursor

namespace Index

variable {G V : Type}

/-- A cursor for all entries. -/
def cursor (ix : Index G V) : Cursor := .between ix.front ix.tail

/-- A cursor for the entries whose name is not below `name`. -/
def cursorFrom (ix : Index G V) (name : Name) : Except Fault Cursor := do
  let (_, after) ← ix.bracket name
  return .between after ix.tail

/-- Gives out the entry at one side of a cursor. -/
def pop (ix : Index G V) : Side → Cursor → Except Fault (Option (Entry V) × Cursor)
  | .front, cur => do
    match ← ix.follow cur.front with
    | none => .ok (none, cur)
    | some e =>
      if cur.front = cur.back then .ok (some e, .empty)
      else return (some e, { cur with front := ← e.next })
  | .back, cur => do
    match ← ix.follow cur.back with
    | none => .ok (none, cur)
    | some e =>
      if cur.front = cur.back then .ok (some e, .empty)
      else .ok (some e, { cur with back := e.prev })

/-- Gives out an entry, if there is one, at each of the given sides in turn. -/
def popEach (ix : Index G V) : List Side → Cursor → Except Fault (List (Option (Entry V)) × Cursor)
  | [], cur => .ok ([], cur)
  | side :: sides, cur => do
    let (e, cur) ← ix.pop side cur
    let (es, cur) ← ix.popEach sides cur
    .ok (e :: es, cur)

/-- The entries given out at one side up to the first that fails `keep`, in at most `fuel` steps. -/
def popWhile (ix : Index G V) (side : Side) (keep : Entry V → Bool) :
    (fuel : Nat) → Cursor → Except Fault (List (Entry V))
  | 0, _ => .error .endless
  | fuel + 1, cur => do
    match ← ix.pop side cur with
    | (none, _) => .ok []
    | (some e, cur) =>
      if keep e then return e :: (← ix.popWhile side keep fuel cur) else .ok []

/-- All entries that a cursor gives out at one side. They are at most as many as there are slots,
for a cursor that gives out an entry twice comes round to it for ever. -/
def popAll (ix : Index G V) (side : Side) (cur : Cursor) : Except Fault (List (Entry V)) :=
  ix.popWhile side (fun _ => true) (ix.capacity + 1) cur

/-- The entries in name order. -/
def entries (ix : Index G V) : Except Fault (List (Entry V)) := ix.popAll .front ix.cursor

/-- The entries whose name begins with `stem`, in name order. -/
def startingWith (ix : Index G V) (stem : Name) : Except Fault (List (Entry V)) := do
  let cur ← ix.cursorFrom stem
  ix.popWhile .front (fun e => stem.isPrefixOf e.name) (ix.capacity + 1) cur

end Index

end NameIndex
