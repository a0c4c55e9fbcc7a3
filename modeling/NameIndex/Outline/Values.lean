import NameIndex.Cursor
import NameIndex.Index.Enroll
import NameIndex.Outline

/-!
# Outlines of the values of an index

How names, cookies, entries, refusals, configurations and whole indexes are printed. A name is the
list of its bytes, an entry shows its height for its links, and an index is the dictionary of its
names and values in name order.
-/

namespace NameIndex

/-- The bytes of a name. -/
def Name.outline (name : Name) : Outline :=
  .list (name.map fun byte => .number byte.toNat)

/-- A cookie with its number. -/
def Cookie.outline (c : Cookie) : Outline := .tuple "Cookie" [.number c.val]

/-- An entry with its height for its links. -/
def Entry.outline {V : Type} [ToString V] (e : Entry V) : Outline :=
  .struct "Entry" [
    .field "name" (Name.outline e.name),
    .field "value" (.atom (toString e.value)),
    .field "cookie" e.cookie.outline,
    .field "height" (.number e.height)]

/-- The reason of a refusal with its numbers. -/
def Refusal.outline : Refusal → Outline
  | duplicateKey => .atom "DuplicateKey"
  | cookieCollision cookie slot =>
    .struct "CookieCollision" [.field "cookie" cookie.outline, .field "slot" (.number slot)]

/-- A refusal with the name of the entry, whose value is left out. -/
def EnrollError.outline {V : Type} (e : EnrollError V) : Outline :=
  .struct "EnrollError" [
    .field "kind" e.reason.outline,
    .field "name" (Name.outline e.entry.name),
    .others]

/-- The fields of a configuration as they were given. -/
def Config.outline (c : Config) : Outline :=
  .struct "NameTreeConfig" [
    .field "initial_capacity" (.number c.initialCapacity),
    .field "max_capacity" (.number c.maxCapacity),
    .field "seed" (match c.seed with
      | some seed => .tuple "Some" [.number seed.toNat]
      | none => .atom "None")]

/-- The names and values of an index in name order. -/
def Index.outline {G V : Type} [ToString V] (ix : Index G V) : Except Fault Outline := do
  let entries ← ix.entries
  return .dictionary (entries.map fun e =>
    .pair (Name.outline e.name) (.atom (toString e.value)))

end NameIndex
