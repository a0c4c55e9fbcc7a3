import NameIndex.Cookie

/-!
# Faults

An operation on an index whose links, counts and slots agree stops only when the cookies are spent
or when there is no room for a larger table. On any other state it may meet a contradiction.
`Corruption` lists the contradictions that the operations look for, and `Fault` adds the failures of
reading a list beyond its end, of counting below zero or beyond what a word holds, of asking for
more room than there can be, and of following links for ever. An operation that stops leaves no
usable index behind.
-/

namespace NameIndex

/-- A contradiction between the parts of an index. -/
inductive Corruption where
  /-- A link or the tail names a cookie that the table does not hold. -/
  | unknownLink (cookie : Cookie)
  /-- An entry that a level passes through has no link at that level. -/
  | missingLink (cookie : Cookie) (level : Nat)
  /-- A level leads to an entry that is not tall enough for it. -/
  | tooLow (cookie : Cookie) (level height : Nat)
  /-- The caller hands over an entry that still has links. -/
  | alreadyLinked
  /-- Two stored entries claim one slot of the larger table. -/
  | rehashCollision (cookie : Cookie) (slots : Nat)
  /-- The slot chosen for a new entry is occupied. -/
  | slotTaken (cookie : Cookie)
  /-- A stored entry has no level, or more levels than the index. -/
  | storedHeight (cookie : Cookie) (height : Nat)
  /-- A stored entry is not met by the search for its name. -/
  | notLinked (cookie : Cookie)
  /-- The entry before a cookie at some level does not link to it. -/
  | misplaced (cookie : Cookie) (level : Nat)
  /-- A stored entry is gone from its slot. -/
  | vanished (cookie : Cookie)
  /-- The last entry in name order is not the tail. -/
  | notTail (cookie : Cookie)
  /-- The successor of an entry does not point back to it. -/
  | brokenBackLink (cookie : Cookie)
  /-- Level 0 leads to a cookie that the table no longer holds. -/
  | unknownInChain (cookie : Cookie)
  /-- Level 0 holds another number of entries than counted. -/
  | drainedCount (drained counted : Nat)
  /-- The index has more levels than any entry may have. -/
  | activeLevels (levels : Nat)
  /-- An entry of level 0 has no level, or more levels than the index. -/
  | wrongHeight (cookie : Cookie) (height : Nat)
  /-- An entry points back to another entry than the one before it. -/
  | wrongPrev (cookie found expected : Cookie)
  /-- An entry's name does not come after the name before it. -/
  | outOfOrder (cookie : Cookie)
  /-- A level passes over an entry that is tall enough for it. -/
  | skipped (level : Nat) (cookie : Cookie)
  /-- Level 0 does not end after the counted number of entries. -/
  | tooLong (counted : Nat)
  /-- A level goes on after the last entry that is tall enough for it. -/
  | runsPast (level : Nat)
  /-- The tail is not the entry that ends level 0. -/
  | wrongTail (tail last : Cookie)
  /-- The number of linked entries is not the count. -/
  | linkedCount (linked counted : Nat)
  /-- The number of stored entries is not the number of linked ones. -/
  | storedCount (stored linked : Nat)
  /-- A stored entry has a cookie that was never given out. -/
  | neverIssued (cookie : Cookie)
deriving DecidableEq

/-- Why an operation stops without an answer. -/
inductive Fault where
  /-- The parts of the index contradict each other. -/
  | corrupt (what : Corruption)
  /-- A list of `length` items is read at `index`. -/
  | outOfRange (length index : Nat)
  /-- An entry is counted off an index that counts none. -/
  | countBelowZero
  /-- The count is doubled beyond what a word holds. -/
  | countTooLarge
  /-- A number of slots is rounded up beyond what a word holds. -/
  | sizeTooLarge
  /-- Every cookie that a word can number has been passed. -/
  | cookiesSpent
  /-- Room is asked for more entries than a list or a table can hold. -/
  | noRoom
  /-- The links lead round in a circle, and no end is ever reached. -/
  | endless
deriving DecidableEq

namespace Corruption

/-- The wording of a contradiction. -/
def message : Corruption → String
  | unknownLink c => s!"link to unknown cookie {c}"
  | missingLink c level => s!"cookie {c} has no link at level {level}"
  | tooLow c level height => s!"cookie {c} reached at level {level} with height {height}"
  | alreadyLinked => "enrolling an entry that is already linked"
  | rehashCollision c slots => s!"cookie {c} collided while rehashing to {slots} slots"
  | slotTaken c => s!"slot for cookie {c} taken during enroll"
  | storedHeight c height => s!"cookie {c} stored with height {height}"
  | notLinked c => s!"cookie {c} is in the table but not in the skiplist"
  | misplaced c level => s!"cookie {c} misplaced at level {level}"
  | vanished c => s!"cookie {c} vanished during remove"
  | notTail c => s!"cookie {c} ends level 0 but is not the tail"
  | brokenBackLink c => s!"predecessor link of cookie {c} is broken"
  | unknownInChain c => s!"level 0 links to unknown cookie {c}"
  | drainedCount drained counted => s!"drained {drained} entries, expected {counted}"
  | activeLevels levels => s!"{levels} active levels"
  | wrongHeight c height => s!"cookie {c} has height {height}"
  | wrongPrev c found expected => s!"cookie {c} points back to {found} not {expected}"
  | outOfOrder c => s!"cookie {c} is out of name order"
  | skipped level c => s!"level {level} skips cookie {c}"
  | tooLong counted => s!"level 0 is longer than {counted} entries"
  | runsPast level => s!"level {level} runs past its last entry"
  | wrongTail tail last => s!"tail is {tail} but level 0 ends at {last}"
  | linkedCount linked counted => s!"{linked} entries linked, {counted} counted"
  | storedCount stored linked => s!"{stored} entries in the table, {linked} linked"
  | neverIssued c => s!"table holds cookie {c} never issued"

end Corruption

namespace Fault

/-- The wording of a fault. -/
def message : Fault → String
  | corrupt what => s!"nametree corruption detected: {what.message}"
  | outOfRange length index =>
    s!"index out of bounds: the len is {length} but the index is {index}"
  | countBelowZero => "attempt to subtract with overflow"
  | countTooLarge => "attempt to multiply with overflow"
  | sizeTooLarge | cookiesSpent => "attempt to add with overflow"
  | noRoom => "capacity overflow"
  | endless => "the links never end"

end Fault

/-- Stops with a contradiction unless a condition holds. -/
def expect (holds : Bool) (otherwise : Corruption) : Except Fault Unit :=
  if holds then .ok () else .error (.corrupt otherwise)

end NameIndex
