import NameIndex.Index.Basic

/-!
# Checking an index

The check walks once along level 0. At each entry it tests the height, the back link, the name order
and that every level of the entry's height leads to it from the last entry of that height; at the
end it tests that every level ends, the tail, and the numbers of entries linked, counted and
stored. It gives up as soon as level 0 holds more entries than counted, so it always ends.
-/

namespace NameIndex

/-- What the walk of a check has passed. -/
structure Walk where
  /-- The last entry passed at each level. -/
  last : List Cookie
  /-- The last entry passed. -/
  prev : Cookie
  /-- The number of entries passed. -/
  seen : Nat
deriving DecidableEq

namespace Index

variable {G V : Type}

/-- Checks that the levels below `height` lead to `c` from the entries last passed, and passes it
there. -/
def checkLevels (ix : Index G V) (c : Cookie) (height : Nat) (last : List Cookie) :
    Except Fault (List Cookie) :=
  (List.range height).foldlM (fun last level => do
    expect ((← ix.successor (last.getD level .null) level) = c) (.skipped level c)
    return last.set level c) last

/-- Checks the entry of a cookie that level 0 leads to, and passes it. -/
def checkEntry (ix : Index G V) (w : Walk) (c : Cookie) (e : Entry V) : Except Fault Walk := do
  expect (e.height ≠ 0 ∧ e.height ≤ ix.heads.length) (.wrongHeight c e.height)
  expect (e.prev = w.prev) (.wrongPrev c e.prev w.prev)
  if w.prev ≠ .null then
    expect ((← ix.resolve w.prev).name < e.name) (.outOfOrder c)
  let last ← ix.checkLevels c e.height w.last
  return ⟨last, c, w.seen + 1⟩

/-- Walks on along level 0 from a cookie past at most `room` entries. -/
def walk (ix : Index G V) : (room : Nat) → Walk → Cookie → Except Fault Walk
  | room, w, c => do
    if c = .null then .ok w
    else
      let e ← ix.resolve c
      let w ← ix.checkEntry w c e
      match room with
      | 0 => .error (.corrupt (.tooLong ix.count))
      | room + 1 => ix.walk room w (← e.next)

/-- Checks that no level goes on after the entry last passed there. -/
def checkEnds (ix : Index G V) (last : List Cookie) : Except Fault Unit :=
  (List.range last.length).forM fun level => do
    expect ((← ix.successor (last.getD level .null) level) = .null) (.runsPast level)

/-- Checks the cookies of the stored entries. -/
def checkIssued (ix : Index G V) : Except Fault Unit :=
  ix.table.live.forM fun e =>
    expect (e.cookie ≠ .null ∧ e.cookie.val ≤ ix.lastCookie) (.neverIssued e.cookie)

/-- Checks that all parts of the index agree; the number of entries. -/
def check (ix : Index G V) : Except Fault Nat := do
  expect (ix.heads.length ≤ maxLevels) (.activeLevels ix.heads.length)
  let start : Walk := ⟨ix.heads.map fun _ => .null, .null, 0⟩
  let w ← ix.walk ix.count start ix.front
  ix.checkEnds w.last
  expect (ix.tail = w.prev) (.wrongTail ix.tail w.prev)
  expect (w.seen = ix.count) (.linkedCount w.seen ix.count)
  expect (ix.table.live.length = w.seen) (.storedCount ix.table.live.length w.seen)
  ix.checkIssued
  return w.seen

end Index

end NameIndex
