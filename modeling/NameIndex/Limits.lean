import NameIndex.Fault

/-!
# Limits

A number is a word of sixty-four bits, and what takes more than that is a fault. A list or table of
entries is one run of memory. An entry whose value is a word takes sixty-four bytes, and a run of
memory is shorter than 2^63 bytes; room for more entries than that is refused before any of them is
looked at.
-/

namespace NameIndex

/-- The first number that does not fit in a word. -/
def wordLimit : Nat := 1 <<< 64

/-- A number that has been worked out, if it fits in a word. -/
def asWord (n : Nat) (otherwise : Fault) : Except Fault Nat :=
  if n < wordLimit then .ok n else .error otherwise

/-- The number of entries that would fill 2^63 bytes, which no list or table can hold. -/
def entryLimit : Nat := 1 <<< 57

/-- Makes room for a number of entries. -/
def reserve (entries : Nat) : Except Fault Unit :=
  if entries < entryLimit then .ok () else .error .noRoom

end NameIndex
