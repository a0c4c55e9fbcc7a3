import NameIndex.Index.Basic

/-!
# Images

An image is the linked structure of an index written out: the heads, the tail, the two counters and
the occupied slots with their entries. Any image can be laid over an index, so that an index in any
state, sound or not, can be made. The size of the table, its bound and the source of level draws are
those of the index itself.
-/

namespace NameIndex

/-- The linked structure of an index. -/
structure Image (V : Type) where
  /-- The first entry of each level. -/
  heads : List Cookie
  /-- The entry with the greatest name. -/
  tail : Cookie
  /-- The number of the last cookie given out. -/
  lastCookie : Nat
  /-- The number of entries. -/
  count : Nat
  /-- The occupied slots with their entries. -/
  slots : List (Nat × Entry V)
deriving DecidableEq

namespace Index

variable {G V : Type}

/-- The image of an index, with its slots in order. -/
def image (ix : Index G V) : Image V where
  heads := ix.heads
  tail := ix.tail
  lastCookie := ix.lastCookie
  count := ix.count
  slots := ix.table.slots.toList.zipIdx.filterMap fun (e, slot) => e.map fun e => (slot, e)

/-- Lays an image over an index: its slots are filled and its other fields replaced. -/
def overlay (ix : Index G V) (image : Image V) : Index G V :=
  { ix with
    table := image.slots.foldl (fun t (slot, e) => t.setSlot slot (some e)) ix.table
    heads := image.heads
    tail := image.tail
    lastCookie := image.lastCookie
    count := image.count }

/-- A new index with an image laid over it, if there is one. -/
def createWith [LevelSource G] (config : Config) (entropy : UInt64) (image : Option (Image V)) :
    Except Fault (Index G V) := do
  let ix ← create config entropy
  match image with
  | some image => return ix.overlay image
  | none => return ix

end Index

end NameIndex
