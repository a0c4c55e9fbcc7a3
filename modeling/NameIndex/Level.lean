/-!
# Levels

A new entry takes part in level 0, and in each further level with one chance in four, up to
`maxLevels` levels. The chances are drawn from a stream of 64-bit numbers; any state type with a
`LevelSource` instance can be that stream.
-/

namespace NameIndex

/-- The greatest number of levels that an entry may take part in. -/
def maxLevels : Nat := 30

/-- A draw below this number, a quarter of all draws, keeps an entry climbing. -/
def climbBound : Nat := 1 <<< 62

/-- A state that yields a stream of 64-bit numbers, fixed by a seed. -/
class LevelSource (G : Type) where
  /-- The state at the start of the stream of a seed. -/
  seeded : UInt64 → G
  /-- The next number of the stream, and the state after it. -/
  draw : G → UInt64 × G

namespace LevelSource

variable {G : Type} [LevelSource G]

/-- Draws until a number reaches `climbBound` or `room` numbers are drawn: how many numbers were
below it, and the state after the draws. -/
def climb : Nat → G → Nat × G
  | 0, g => (0, g)
  | room + 1, g =>
    let (x, g) := draw g
    if x.toNat < climbBound then
      let (n, g) := climb room g
      (n + 1, g)
    else (0, g)

/-- The height of the next entry, between 1 and `maxLevels`. -/
def drawHeight (g : G) : Nat × G :=
  let (n, g) := climb (maxLevels - 1) g
  (n + 1, g)

/-- A climb gives at most as many levels as there is room for. -/
theorem climb_le (room : Nat) (g : G) : (climb room g).1 ≤ room := by
  induction room generalizing g with
  | zero => exact Nat.le_refl 0
  | succ room ih =>
    simp only [climb]
    split
    · exact Nat.succ_le_succ (ih _)
    · exact Nat.zero_le _

/-- Every entry takes part in level 0. -/
theorem one_le_drawHeight (g : G) : 1 ≤ (drawHeight g).1 :=
  Nat.le_add_left 1 _

/-- No entry takes part in more than `maxLevels` levels. -/
theorem drawHeight_le (g : G) : (drawHeight g).1 ≤ maxLevels :=
  Nat.succ_le_succ (climb_le (maxLevels - 1) g)

/-- The heights of the next `count` entries. -/
def drawHeights : Nat → G → List Nat × G
  | 0, g => ([], g)
  | count + 1, g =>
    let (h, g) := drawHeight g
    let (hs, g) := drawHeights count g
    (h :: hs, g)

end LevelSource

end NameIndex
