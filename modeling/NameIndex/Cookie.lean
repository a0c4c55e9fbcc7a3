/-!
# Cookies

A cookie is the handle of an entry in the index. Cookies are positive numbers given out in
increasing order. The null cookie, zero, stands for no entry and ends a chain of links.
-/

namespace NameIndex

/-- The handle under which an index knows an entry. -/
structure Cookie where
  /-- The number of the cookie. -/
  val : Nat
deriving DecidableEq, Ord

namespace Cookie

/-- The cookie of no entry. -/
def null : Cookie := ⟨0⟩

instance : Inhabited Cookie := ⟨null⟩

instance : ToString Cookie := ⟨fun c => toString c.val⟩

/-- Whether the cookie stands for no entry. -/
def isNull (c : Cookie) : Bool := decide (c = null)

end Cookie

end NameIndex
