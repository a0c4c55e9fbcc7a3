import NameIndex.Entry
import NameIndex.Limits

/-!
# The cookie table

The table stores the linked entries in an array of slots. A cookie belongs in the slot of its
residue modulo the number of slots, and a look-up answers only the entry that carries the cookie
asked for, so a slot that has been reused never answers an older cookie.
-/

namespace NameIndex

/-- Entries in slots, each found by its cookie. -/
structure CookieTable (V : Type) where
  /-- The entry in each slot, if there is one. -/
  slots : Array (Option (Entry V))
  /-- There are no more slots than a table can have. -/
  fits : slots.size < entryLimit
deriving DecidableEq

namespace CookieTable

variable {V : Type}

/-- A table of free slots. -/
def empty (capacity : Nat) (h : capacity < entryLimit) : CookieTable V :=
  ⟨Array.replicate capacity none, by rwa [Array.size_replicate]⟩

/-- A table of so many free slots, if there is room for it. -/
def withCapacity (capacity : Nat) : Except Fault (CookieTable V) :=
  if h : capacity < entryLimit then .ok (.empty capacity h) else .error .noRoom

/-- The number of slots. -/
def capacity (t : CookieTable V) : Nat := t.slots.size

/-- The slot that a cookie belongs in. -/
def slotOf (t : CookieTable V) (c : Cookie) : Nat := c.val % t.capacity

/-- The entry in a slot. -/
def entryAt (t : CookieTable V) (slot : Nat) : Option (Entry V) := t.slots[slot]?.join

/-- Fills or frees a slot. -/
def setSlot (t : CookieTable V) (slot : Nat) (e : Option (Entry V)) : CookieTable V :=
  ⟨t.slots.setIfInBounds slot e, by rw [Array.size_setIfInBounds]; exact t.fits⟩

/-- The entry that carries a cookie, in the slot of that cookie. -/
def get? (t : CookieTable V) (c : Cookie) : Option (Entry V) :=
  if c = .null then none else (t.entryAt (t.slotOf c)).filter fun e => e.cookie = c

/-- Whether the slot of a cookie holds no entry. -/
def isFree (t : CookieTable V) (c : Cookie) : Bool := (t.entryAt (t.slotOf c)).isNone

/-- Stores an entry in the slot of its cookie, unless that slot is occupied. -/
def place? (t : CookieTable V) (e : Entry V) : Option (CookieTable V) :=
  if t.isFree e.cookie then some (t.setSlot (t.slotOf e.cookie) (some e)) else none

/-- Takes the entry that carries a cookie out of the table. -/
def take? (t : CookieTable V) (c : Cookie) : Option (Entry V × CookieTable V) :=
  (t.get? c).map fun e => (e, t.setSlot (t.slotOf c) none)

/-- Changes the entry that carries a cookie, if there is one. -/
def modify (t : CookieTable V) (c : Cookie) (f : Entry V → Entry V) : CookieTable V :=
  match t.get? c with
  | none => t
  | some e => t.setSlot (t.slotOf c) (some (f e))

/-- The stored entries in slot order. -/
def live (t : CookieTable V) : List (Entry V) := t.slots.toList.filterMap id

/-- Stores one more entry while a table of `capacity` slots is filled anew. -/
def refill (capacity : Nat) (t : CookieTable V) (e : Entry V) : Except Fault (CookieTable V) :=
  match t.place? e with
  | some t => .ok t
  | none => .error (.corrupt (.rehashCollision e.cookie capacity))

/-- The same entries in a table of another size, stored anew in slot order. -/
def rehash (t : CookieTable V) (capacity : Nat) : Except Fault (CookieTable V) := do
  let new ← withCapacity capacity
  t.live.foldlM (refill capacity) new

end CookieTable

end NameIndex
