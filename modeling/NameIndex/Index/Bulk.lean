import NameIndex.Cursor
import NameIndex.Index.Remove

/-!
# Many operations at once

Series of enrolments and removals: all names of a numbering, or one entry that comes and goes; and
the heights of the entries of an index taken together.
-/

namespace NameIndex

/-- Names that end in the numbers `start`, `start + stride` and so on, padded to a width. -/
structure Numbering where
  /-- The beginning of every name. -/
  stem : Name
  /-- The first number. -/
  start : Int
  /-- The difference between a number and the next. -/
  stride : Int
  /-- How many names there are. -/
  count : Nat
  /-- The least number of places. -/
  width : Nat

namespace Numbering

/-- The numbers. -/
def numbers (n : Numbering) : List Int :=
  (List.range n.count).map fun k : Nat => n.start + n.stride * k

/-- The name that ends in a number. -/
def name (n : Numbering) (i : Int) : Name := Name.numbered n.stem n.width i

end Numbering

/-- How a series of enrolments went. -/
structure Tally where
  /-- The number of entries enrolled. -/
  enrolled : Nat := 0
  /-- The number of entries refused for their names. -/
  duplicates : Nat := 0
  /-- The number of entries refused for want of a slot. -/
  collisions : Nat := 0
  /-- The first new cookie. -/
  first : Option Cookie := none
  /-- The last new cookie. -/
  last : Option Cookie := none
deriving DecidableEq

/-- Counts one more enrolment. -/
def Tally.add {V : Type} (t : Tally) : Except (EnrollError V) Cookie → Tally
  | .ok c => { t with enrolled := t.enrolled + 1, first := t.first.or (some c), last := some c }
  | .error ⟨.duplicateKey, _⟩ => { t with duplicates := t.duplicates + 1 }
  | .error ⟨.cookieCollision _ _, _⟩ => { t with collisions := t.collisions + 1 }

namespace Index

variable {G V : Type}

/-- Enrolls every name of a numbering, with its number for its value. -/
def enrollNumbered [LevelSource G] (ix : Index G Int) (names : Numbering) :
    Except Fault (Tally × Index G Int) :=
  names.numbers.foldlM (fun (tally, ix) i => do
    let (result, ix) ← ix.enroll { name := names.name i, value := i }
    return (tally.add result, ix)) ({}, ix)

/-- Removes the entry of a name, if there is one. -/
def removeName (ix : Index G V) (name : Name) : Except Fault (Option (Entry V) × Index G V) := do
  match ← ix.lookup name with
  | some e => ix.remove e.cookie
  | none => return (none, ix)

/-- Removes the entries of every name of a numbering; how many there were. -/
def removeNumbered (ix : Index G V) (names : Numbering) : Except Fault (Nat × Index G V) :=
  names.numbers.foldlM (fun (removed, ix) i => do
    match ← ix.removeName (names.name i) with
    | (some _, ix) => return (removed + 1, ix)
    | (none, ix) => return (removed, ix)) (0, ix)

/-- Enrolls and removes an entry a number of times: the cookies that it got, the latest first, or
the first refusal. -/
def churn [LevelSource G] (ix : Index G V) (e : Entry V) (got : List Cookie) :
    (rounds : Nat) → Except Fault (Except (EnrollError V) (List Cookie) × Index G V)
  | 0 => .ok (.ok got, ix)
  | rounds + 1 => do
    match ← ix.enroll e with
    | (.error refused, ix) => .ok (.error refused, ix)
    | (.ok c, ix) => do
      match ← ix.remove c with
      | (some e, ix) => ix.churn e (c :: got) rounds
      | (none, ix) => .ok (.ok (c :: got), ix)

/-- The heights of the entries in name order. -/
def heights (ix : Index G V) : Except Fault (List Nat) := do
  return (← ix.entries).map Entry.height

/-- How many entries have each height, from 1 up to the number of levels in use. -/
def histogram (ix : Index G V) : Except Fault (List Nat) := do
  let heights ← ix.heights
  return (List.range ix.activeLevels).map fun level => heights.count (level + 1)

end Index

end NameIndex
