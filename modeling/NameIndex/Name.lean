/-!
# Names

A name is a string of bytes. Names are ordered byte by byte as unsigned numbers, and a name comes
before each of its proper extensions; that is the lexicographic order of lists.
-/

namespace NameIndex

/-- A name: a string of bytes, ordered as a list. -/
abbrev Name := List UInt8

namespace Name

/-- The decimal digits of `n` in ASCII, with zeros on the left up to `width` digits. -/
def digits (width n : Nat) : Name :=
  ((Nat.toDigits 10 n).map Char.toUInt8).leftpad width '0'.toUInt8

/-- The number `i` in decimal, with zeros before its digits up to `width` places, of which a minus
sign takes one. -/
def decimal (width : Nat) : Int → Name
  | .ofNat n => digits width n
  | .negSucc n => '-'.toUInt8 :: digits (width - 1) (n + 1)

/-- The name `stem` followed by `i` in decimal. -/
def numbered (stem : Name) (width : Nat) (i : Int) : Name :=
  stem ++ decimal width i

end Name

end NameIndex
