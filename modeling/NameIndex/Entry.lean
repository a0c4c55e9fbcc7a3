import NameIndex.Name
import NameIndex.Cookie

/-!
# Entries

An entry is a name with a value. While an index holds it, it also carries its cookie, its
successor at each level that it takes part in, and its predecessor in name order. An entry that
the caller owns is unlinked: it has no links, and normally the null cookie.
-/

namespace NameIndex

/-- A named value and its place in an index. -/
structure Entry (V : Type) where
  /-- The name, which never changes while the entry is linked. -/
  name : Name
  /-- The caller's value. -/
  value : V
  /-- The cookie that the entry is linked under. -/
  cookie : Cookie := .null
  /-- The successor at each level from 0 up; as many as the entry has levels. -/
  links : List Cookie := []
  /-- The entry before this one in name order. -/
  prev : Cookie := .null
deriving DecidableEq

/-- What a reader of an index sees of an entry. -/
structure Record (V : Type) where
  /-- The name of the entry. -/
  name : Name
  /-- The value of the entry. -/
  value : V
  /-- The cookie of the entry. -/
  cookie : Cookie
deriving DecidableEq

namespace Entry

variable {V : Type}

/-- The number of levels that the entry takes part in. -/
def height (e : Entry V) : Nat := e.links.length

/-- Whether the entry takes part in any level. -/
def isLinked (e : Entry V) : Bool := !e.links.isEmpty

/-- The name and value alone, in no index. -/
def unlinked (e : Entry V) : Entry V := { name := e.name, value := e.value }

/-- The entry without its links. -/
def record (e : Entry V) : Record V := ⟨e.name, e.value, e.cookie⟩

end Entry

end NameIndex
