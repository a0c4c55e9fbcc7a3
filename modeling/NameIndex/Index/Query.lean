import NameIndex.Index.Search

/-!
# Queries

Entries are read by cookie, which asks the table alone, or by their place in name order, which
follows links: the two ends, the neighbours of an entry, and the entries around a name.
-/

namespace NameIndex

namespace Index

variable {G V : Type}

/-- The entry of a cookie. -/
def get? (ix : Index G V) (c : Cookie) : Option (Entry V) := ix.table.get? c

/-- Whether a cookie has an entry. -/
def contains (ix : Index G V) (c : Cookie) : Bool := (ix.get? c).isSome

/-- Gives the entry of a cookie another value; the old one, if the cookie has an entry. -/
def setValue (ix : Index G V) (c : Cookie) (value : V) : Option V × Index G V :=
  ((ix.get? c).map (·.value), { ix with table := ix.table.modify c fun e => { e with value } })

/-- The entry with the least name. -/
def first (ix : Index G V) : Except Fault (Option (Entry V)) := ix.follow ix.front

/-- The entry with the greatest name. -/
def last (ix : Index G V) : Except Fault (Option (Entry V)) := ix.follow ix.tail

/-- The entry after that of a cookie. -/
def next (ix : Index G V) (c : Cookie) : Except Fault (Option (Entry V)) :=
  match ix.get? c with
  | none => .ok none
  | some e => do ix.follow (← e.next)

/-- The entry before that of a cookie. -/
def prev (ix : Index G V) (c : Cookie) : Except Fault (Option (Entry V)) :=
  match ix.get? c with
  | none => .ok none
  | some e => ix.follow e.prev

/-- The last cookie before a name and the first one that is not before it. -/
def bracket (ix : Index G V) (name : Name) : Except Fault (Cookie × Cookie) :=
  if ix.heads = [] then .ok (.null, .null)
  else do
    let p ← ix.search name .null
    .ok (p.before 0, ← ix.successor (p.before 0) 0)

/-- The entry with the least name that is not below `name`. -/
def seek (ix : Index G V) (name : Name) : Except Fault (Option (Entry V)) := do
  let (_, after) ← ix.bracket name
  ix.follow after

/-- The entry named `name`. -/
def lookup (ix : Index G V) (name : Name) : Except Fault (Option (Entry V)) := do
  return (← ix.seek name).filter fun e => e.name = name

/-- The entry with the greatest name that is not above `name`. -/
def floor (ix : Index G V) (name : Name) : Except Fault (Option (Entry V)) := do
  let (before, after) ← ix.bracket name
  match (← ix.follow after).filter fun e => e.name = name with
  | some e => .ok (some e)
  | none => ix.follow before

end Index

end NameIndex
