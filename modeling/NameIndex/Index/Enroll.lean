import NameIndex.Index.Search

/-!
# Enrolling

To enroll an entry is to give it a fresh cookie and a height, to splice it into its levels and to
store it. A name that is already enrolled is refused, and so is any entry once all slots are
occupied and the table may not grow. The height is drawn first, so a refusal costs its draws; a
refusal for want of a slot costs a cookie as well. Where no cookie is left, or no room for a larger
table, the enrolment stops.
-/

namespace NameIndex

/-- Why an entry is refused. -/
inductive Refusal where
  /-- An entry of the same name is enrolled. -/
  | duplicateKey
  /-- Every slot is occupied; the next cookie would have belonged in `slot`. -/
  | cookieCollision (cookie : Cookie) (slot : Nat)
deriving DecidableEq

/-- The wording of a refusal. -/
def Refusal.message : Refusal → String
  | duplicateKey => "an entry with the same name is already enrolled"
  | cookieCollision cookie slot => s!"cookie {cookie} maps to occupied table slot {slot}"

/-- A refused entry, given back as it was. -/
structure EnrollError (V : Type) where
  /-- Why the entry is refused. -/
  reason : Refusal
  /-- The entry. -/
  entry : Entry V
deriving DecidableEq

/-- The cookie after the last one, as long as there are any. -/
def Cookie.after (last : Nat) : Except Fault Cookie :=
  Cookie.mk <$> asWord (last + 1) .cookiesSpent

/-- The least cookie above `last` whose slot is free. A search that has met every slot in `fuel`
cookies, and no free one, will meet none until the cookies are spent. -/
def CookieTable.nextFree {V : Type} (t : CookieTable V) :
    (fuel last : Nat) → Except Fault Cookie
  | 0, _ => .error .cookiesSpent
  | fuel + 1, last => do
    let c ← Cookie.after last
    if t.isFree c then .ok c else t.nextFree fuel c.val

namespace Index

variable {G V : Type}

/-- Doubles a table that is half full, unless it would exceed its greatest size. -/
def grow (ix : Index G V) : Except Fault (Index G V) := do
  let doubled ← asWord (ix.count * 2) .countTooLarge
  if ix.capacity ≤ doubled ∧ ix.capacity * 2 ≤ ix.maxCapacity then
    let table ← ix.table.rehash (ix.capacity * 2)
    return { ix with table }
  else return ix

/-- Gives out the next cookie with a free slot, after growing the table if need be. As many cookies
as there are slots meet every slot once. -/
def allocate (ix : Index G V) : Except Fault (Except Refusal Cookie × Index G V) := do
  let ix ← ix.grow
  if ix.capacity ≤ ix.count then
    let c ← Cookie.after ix.lastCookie
    return (.error (.cookieCollision c (ix.table.slotOf c)), { ix with lastCookie := c.val })
  else
    let c ← ix.table.nextFree ix.capacity ix.lastCookie
    return (.ok c, { ix with lastCookie := c.val })

/-- Brings new levels into use until there are `height`. -/
def raise (ix : Index G V) (height : Nat) : Index G V :=
  { ix with heads := ix.heads ++ List.replicate (height - ix.heads.length) .null }

/-- The cookies after a search's predecessors at the levels below `height`. -/
def successors (ix : Index G V) (p : Predecessors) (height : Nat) : Except Fault (List Cookie) :=
  (List.range height).mapM fun level => ix.successor (p.before level) level

/-- Makes `next level` the cookie after a search's predecessor at each level below `height`. -/
def relink (ix : Index G V) (p : Predecessors) (height : Nat) (next : Nat → Cookie) : Index G V :=
  (List.range height).foldl (fun ix level => ix.setSuccessor (p.before level) level (next level)) ix

/-- Makes `c` the cookie before `next`, or the tail if `next` is null; the cookie that was there. -/
def insertBackLink (ix : Index G V) (c next : Cookie) : Except Fault (Cookie × Index G V) :=
  if next = .null then .ok (ix.tail, { ix with tail := c })
  else do
    let after ← ix.resolve next
    return (after.prev, ix.setPrev next c)

/-- Threads a cookie of some height on the levels after a search's predecessors, with its back link,
and stores the entry under it. -/
def splice (ix : Index G V) (e : Entry V) (c : Cookie) (height : Nat) (p : Predecessors) :
    Except Fault (Index G V) := do
  let ix := ix.raise height
  let links ← ix.successors p height
  let ix := ix.relink p height fun _ => c
  let (prev, ix) ← ix.insertBackLink c (links.headD .null)
  match ix.table.place? { e with cookie := c, links, prev } with
  | some table => .ok { ix with table, count := ix.count + 1 }
  | none => .error (.corrupt (.slotTaken c))

/-- Enrolls an unlinked entry: its new cookie, or the entry back with the reason. -/
def enroll [LevelSource G] (ix : Index G V) (e : Entry V) :
    Except Fault (Except (EnrollError V) Cookie × Index G V) := do
  expect (!e.isLinked) .alreadyLinked
  let (height, source) := LevelSource.drawHeight ix.source
  let ix := { ix with source }
  let p ← ix.search e.name .null
  if p.found then return (.error ⟨.duplicateKey, e⟩, ix)
  match ← ix.allocate with
  | (.error reason, ix) => return (.error ⟨reason, e⟩, ix)
  | (.ok c, ix) => return (.ok c, ← ix.splice e c height p)

end Index

end NameIndex
