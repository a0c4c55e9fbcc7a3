import NameIndex.Index.Enroll

/-!
# Removing

To remove a cookie is to take its entry off its levels and out of the table and to hand it back
unlinked. A cookie that the table does not hold, such as one already removed, changes nothing.
Draining removes all entries in name order; the levels stay in use, without entries.
-/

namespace NameIndex

namespace Index

variable {G V : Type}

/-- Checks that a search's predecessors link to `c` at the levels below `height`. -/
def checkPlaced (ix : Index G V) (c : Cookie) (p : Predecessors) (height : Nat) :
    Except Fault Unit :=
  (List.range height).forM fun level => do
    expect ((← ix.successor (p.before level) level) = c) (.misplaced c level)

/-- Gives the back link of a removed entry to its successor, or to the tail after the last one. -/
def passBackLink (ix : Index G V) (c : Cookie) (e : Entry V) : Except Fault (Index G V) := do
  let next := e.links.headD .null
  if next = .null then
    expect (ix.tail = c) (.notTail c)
    return { ix with tail := e.prev }
  else
    expect ((← ix.resolve next).prev = c) (.brokenBackLink next)
    return ix.setPrev next e.prev

/-- Counts one entry off. -/
def countOff (ix : Index G V) : Except Fault (Index G V) :=
  match ix.count with
  | 0 => .error .countBelowZero
  | count + 1 => .ok { ix with count }

/-- Removes the entry of a cookie and hands it back, if the table holds it. -/
def remove (ix : Index G V) (c : Cookie) : Except Fault (Option (Entry V) × Index G V) :=
  match ix.table.get? c with
  | none => .ok (none, ix)
  | some e => do
    expect (e.height ≠ 0 ∧ e.height ≤ ix.heads.length) (.storedHeight c e.height)
    let p ← ix.search e.name c
    expect p.found (.notLinked c)
    ix.checkPlaced c p e.height
    match ix.table.take? c with
    | none => .error (.corrupt (.vanished c))
    | some (e, table) => do
      let ix := { ix with table }
      let ix := ix.relink p e.height fun level => e.links.getD level .null
      let ix ← ix.passBackLink c e
      return (some e.unlinked, ← ix.countOff)

end Index

/-- Takes the entries from `c` on along level 0 out of the table. Each one leaves its slot, so they
end within `slots` steps, or come to a cookie that is gone. -/
def CookieTable.takeChain {V : Type} (t : CookieTable V) :
    (slots : Nat) → Cookie → Except Fault (List (Entry V) × CookieTable V)
  | slots, c =>
    if c = .null then .ok ([], t)
    else
      match slots, t.take? c with
      | slots + 1, some (e, t) => do
        let next ← e.next
        let (rest, t) ← t.takeChain slots next
        .ok (e.unlinked :: rest, t)
      | _, _ => .error (.corrupt (.unknownInChain c))

/-- Removes all entries and hands them back in name order. Room for as many entries as are counted
is made first; a table of so many slots shows that there is that room. -/
def Index.drain {G V : Type} (ix : Index G V) : Except Fault (List (Entry V) × Index G V) := do
  if ix.capacity < ix.count then reserve ix.count
  let (entries, table) ← ix.table.takeChain ix.capacity ix.front
  expect (entries.length = ix.count) (.drainedCount entries.length ix.count)
  return (entries, { ix with
    table, heads := ix.heads.map fun _ => .null, tail := .null, count := 0 })

end NameIndex
