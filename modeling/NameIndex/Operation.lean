import NameIndex.Cursor
import NameIndex.Index.Check
import NameIndex.Index.Remove

/-!
# Operations

The operations on an index as values, so that runs of them can be compared. Each operation gives an
`Answer` and the index after it. Entries that the index keeps are answered as records of name, value
and cookie; entries that go back to the caller are answered whole.
-/

namespace NameIndex

/-- One operation on an index. -/
inductive Operation (V : Type) where
  /-- Enrolls an entry of the caller's. -/
  | enroll (entry : Entry V)
  /-- Removes the entry of a cookie. -/
  | remove (cookie : Cookie)
  /-- Removes all entries. -/
  | drain
  /-- Reads the entry of a cookie. -/
  | get (cookie : Cookie)
  /-- Asks whether a cookie has an entry. -/
  | contains (cookie : Cookie)
  /-- Changes the value of the entry of a cookie. -/
  | set (cookie : Cookie) (value : V)
  /-- Reads the entry with the least name. -/
  | first
  /-- Reads the entry with the greatest name. -/
  | last
  /-- Reads the entry after that of a cookie. -/
  | next (cookie : Cookie)
  /-- Reads the entry before that of a cookie. -/
  | prev (cookie : Cookie)
  /-- Reads the entry of a name. -/
  | lookup (name : Name)
  /-- Reads the first entry not before a name. -/
  | seek (name : Name)
  /-- Reads the last entry not after a name. -/
  | floor (name : Name)
  /-- Reads all entries, or those not before a name, from one side. -/
  | list (start : Option Name) (side : Side)
  /-- Reads entries at given sides of a cursor for all entries, or those not before a name. -/
  | pop (start : Option Name) (sides : List Side)
  /-- Reads the entries whose name begins with `stem`. -/
  | startingWith (stem : Name)
  /-- Checks the index. -/
  | check
  /-- Counts the entries. -/
  | length
  /-- Asks whether there are no entries. -/
  | isEmpty
  /-- Counts the slots. -/
  | capacity
deriving DecidableEq

/-- What an operation answers. -/
inductive Answer (V : Type) where
  /-- The cookie of a new entry. -/
  | enrolled (cookie : Cookie)
  /-- An entry refused. -/
  | refused (error : EnrollError V)
  /-- An entry handed back. -/
  | owned (entry : Option (Entry V))
  /-- Entries handed back. -/
  | drained (entries : List (Entry V))
  /-- An entry read. -/
  | record (record : Option (Record V))
  /-- Entries read. -/
  | records (records : List (Record V))
  /-- Entries read one by one. -/
  | popped (records : List (Option (Record V)))
  /-- The value before a change. -/
  | value (value : Option V)
  /-- Yes or no. -/
  | truth (holds : Bool)
  /-- A count. -/
  | number (n : Nat)
deriving DecidableEq

/-- The entries that an answer hands back. -/
def Answer.handedBack {V : Type} : Answer V → List (Entry V)
  | .refused error => [error.entry]
  | .owned e => e.toList
  | .drained es => es
  | _ => []

namespace Index

variable {G V : Type}

/-- A cursor for all entries, or for those not before a name. -/
def cursorAt (ix : Index G V) : Option Name → Except Fault Cursor
  | none => .ok ix.cursor
  | some name => ix.cursorFrom name

/-- The answer to an operation that only reads. -/
def read (ix : Index G V) (answer : Except Fault (Answer V)) :
    Except Fault (Answer V × Index G V) :=
  answer.map fun a => (a, ix)

/-- The answer to a reading of one entry. -/
def readEntry (ix : Index G V) (entry : Except Fault (Option (Entry V))) :
    Except Fault (Answer V × Index G V) :=
  ix.read (entry.map fun e => .record (e.map Entry.record))

/-- Carries out one operation. -/
def apply [LevelSource G] (ix : Index G V) :
    Operation V → Except Fault (Answer V × Index G V)
  | .enroll e => do
    match ← ix.enroll e with
    | (.ok c, ix) => return (.enrolled c, ix)
    | (.error refused, ix) => return (.refused refused, ix)
  | .remove c => do
    let (e, ix) ← ix.remove c
    return (.owned e, ix)
  | .drain => do
    let (es, ix) ← ix.drain
    return (.drained es, ix)
  | .get c => ix.readEntry (.ok (ix.get? c))
  | .contains c => ix.read (.ok (.truth (ix.contains c)))
  | .set c v =>
    let (old, ix) := ix.setValue c v
    .ok (.value old, ix)
  | .first => ix.readEntry ix.first
  | .last => ix.readEntry ix.last
  | .next c => ix.readEntry (ix.next c)
  | .prev c => ix.readEntry (ix.prev c)
  | .lookup name => ix.readEntry (ix.lookup name)
  | .seek name => ix.readEntry (ix.seek name)
  | .floor name => ix.readEntry (ix.floor name)
  | .list start side => ix.read do
    let es ← ix.popAll side (← ix.cursorAt start)
    return .records (es.map Entry.record)
  | .pop start sides => ix.read do
    let (es, _) ← ix.popEach sides (← ix.cursorAt start)
    return .popped (es.map fun e => e.map Entry.record)
  | .startingWith stem => ix.read do
    let es ← ix.startingWith stem
    return .records (es.map Entry.record)
  | .check => ix.read do return .number (← ix.check)
  | .length => ix.read (.ok (.number ix.count))
  | .isEmpty => ix.read (.ok (.truth ix.isEmpty))
  | .capacity => ix.read (.ok (.number ix.capacity))

/-- Carries out operations in turn, up to the first that fails. -/
def run [LevelSource G] (ix : Index G V) :
    List (Operation V) → Except Fault (List (Answer V) × Index G V)
  | [] => .ok ([], ix)
  | op :: ops => do
    let (answer, ix) ← ix.apply op
    let (answers, ix) ← ix.run ops
    return (answer :: answers, ix)

end Index

end NameIndex
