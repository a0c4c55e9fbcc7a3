/-!
# Outlines

An outline is a value prepared for printing: a text, or a bracketed group of items. It is printed
either on one line, or with every item of a group on lines of its own, four columns deeper than the
group and with a comma after it. A group of nothing is its two brackets in both forms.
-/

namespace NameIndex

/-- A printable tree of texts. -/
inductive Outline where
  /-- A text without line breaks. -/
  | atom (text : String)
  /-- A key, a colon and a value. -/
  | pair (key value : Outline)
  /-- Items between two brackets; on one line they stand off the brackets if `spaced`. -/
  | group (opening : String) (spaced : Bool) (items : List Outline) (closing : String)
  /-- Two dots for items left out, which take no comma. -/
  | others

namespace Outline

/-- A group in square brackets. -/
def list (items : List Outline) : Outline := .group "[" false items "]"

/-- A group in braces. -/
def dictionary (items : List Outline) : Outline := .group "\x7b" false items "\x7d"

/-- A name before a group in round brackets. -/
def tuple (name : String) (items : List Outline) : Outline := .group (name ++ "(") false items ")"

/-- A name before a group of named fields in braces. -/
def struct (name : String) (items : List Outline) : Outline :=
  .group (name ++ " \x7b") true items "\x7d"

/-- A named field. -/
def field (name : String) (value : Outline) : Outline := .pair (.atom name) value

/-- A number in decimal. -/
def number (n : Nat) : Outline := .atom (toString n)

mutual

/-- The outline on one line. -/
def inline : Outline → String
  | atom text => text
  | pair key value => inline key ++ ": " ++ inline value
  | group opening _ [] closing => opening ++ closing
  | group opening spaced items closing =>
    let gap := if spaced then " " else ""
    opening ++ gap ++ ", ".intercalate (inlineEach items) ++ gap ++ closing
  | others => ".."

/-- Each outline on one line. -/
def inlineEach : List Outline → List String
  | [] => []
  | item :: items => inline item :: inlineEach items

end

/-- Two runs of lines set one after the other, where the last line of the first goes on with
`between` and the first line of the second. -/
def join (between : String) : List String → List String → List String
  | [], second => second
  | [line], [] => [line ++ between]
  | [line], next :: second => (line ++ between ++ next) :: second
  | line :: first, second => line :: join between first second

/-- Lines four columns deeper. -/
def indent (lines : List String) : List String := lines.map ("    " ++ ·)

mutual

/-- The lines of the outline, with every item of a group on lines of its own. -/
def lines : Outline → List String
  | atom text => [text]
  | pair key value => join ": " (lines key) (lines value)
  | group opening _ [] closing => [opening ++ closing]
  | group opening _ items closing => opening :: indent (itemLines items) ++ [closing]
  | others => [".."]

/-- The lines of the items of a group. -/
def itemLines : List Outline → List String
  | [] => []
  | others :: items => ".." :: itemLines items
  | item :: items => join "," (lines item) [] ++ itemLines items

end

/-- The outline over several lines. -/
def pretty (o : Outline) : String := "\n".intercalate o.lines

end Outline

end NameIndex
