import NameIndex.Limits

/-!
# Configuration

How large a new index starts, how far it may grow, and the seed of its level draws. Sizes are
rounded up to powers of two, and the greatest size is at least the first one. A size beyond 2^63 has
no such power of two that fits in a word, and no index can be made with it.
-/

namespace NameIndex

/-- The least power of two that is at least `n`. -/
def leastPower (n : Nat) : Nat := if n ≤ 1 then 1 else 1 <<< ((n - 1).log2 + 1)

/-- The least power of two is one. -/
theorem isPowerOfTwo_leastPower (n : Nat) : (leastPower n).isPowerOfTwo := by
  unfold leastPower
  split
  · exact ⟨0, rfl⟩
  · exact ⟨_, Nat.one_shiftLeft _⟩

/-- It does not go below the number. -/
theorem le_leastPower (n : Nat) : n ≤ leastPower n := by
  unfold leastPower
  split
  · assumption
  · have h : n - 1 < 2 ^ ((n - 1).log2 + 1) := Nat.lt_log2_self
    rw [Nat.one_shiftLeft]
    omega

/-- It stays below every power of two that is large enough. -/
theorem leastPower_le {n p : Nat} (hp : p.isPowerOfTwo) (h : n ≤ p) : leastPower n ≤ p := by
  obtain ⟨k, rfl⟩ := hp
  unfold leastPower
  split
  · exact Nat.one_le_two_pow
  · have hn : n - 1 ≠ 0 := by omega
    have hlog : (n - 1).log2 < k := (Nat.log2_lt hn).2 (by omega)
    rw [Nat.one_shiftLeft]
    exact Nat.pow_le_pow_right (by decide) hlog

/-- It fits in a word for the numbers up to 2^63. -/
theorem leastPower_lt_wordLimit_iff {n : Nat} : leastPower n < wordLimit ↔ n ≤ 1 <<< 63 := by
  constructor
  · intro h
    -- A power of two below 2^64 is 2^63 at most.
    obtain ⟨k, hk⟩ := isPowerOfTwo_leastPower n
    have hlt : 2 ^ k < 2 ^ 64 := by rwa [← hk]
    have hle : 2 ^ k ≤ 2 ^ 63 :=
      Nat.pow_le_pow_right (by decide)
        (Nat.le_of_lt_succ ((Nat.pow_lt_pow_iff_right (by decide)).1 hlt))
    exact Nat.le_trans (le_leastPower n) (hk ▸ hle)
  · intro h
    exact Nat.lt_of_le_of_lt (leastPower_le ⟨63, rfl⟩ h) (by decide)

/-- A number rounded up to a power of two, if that fits in a word. -/
def roundUp (n : Nat) : Except Fault Nat := asWord (leastPower n) .sizeTooLarge

/-- How to make an index. -/
structure Config where
  /-- The number of slots wanted at first. -/
  initialCapacity : Nat := 1024
  /-- The number of slots that the table may grow to. -/
  maxCapacity : Nat := 1 <<< 24
  /-- The seed of the level draws, if they are to be the same each time. -/
  seed : Option UInt64 := none
deriving DecidableEq

namespace Config

/-- The number of slots at first. -/
def firstSlots (c : Config) : Nat := leastPower c.initialCapacity

/-- The greatest number of slots. -/
def mostSlots (c : Config) : Nat := max (leastPower c.maxCapacity) c.firstSlots

/-- The first and the greatest number of slots, if they fit in a word. -/
def capacities (c : Config) : Except Fault (Nat × Nat) := do
  let first ← roundUp c.initialCapacity
  let most ← roundUp c.maxCapacity
  return (first, max most first)

/-- The sizes are such that there is an index of them. -/
structure Fits (c : Config) : Prop where
  /-- The first size can be rounded up. -/
  initial : c.initialCapacity ≤ 1 <<< 63
  /-- The greatest size can be rounded up. -/
  greatest : c.maxCapacity ≤ 1 <<< 63
  /-- There is room for as many slots as the index starts with. -/
  room : c.firstSlots < entryLimit

theorem isPowerOfTwo_firstSlots (c : Config) : c.firstSlots.isPowerOfTwo :=
  isPowerOfTwo_leastPower c.initialCapacity

theorem isPowerOfTwo_mostSlots (c : Config) : c.mostSlots.isPowerOfTwo := by
  rw [mostSlots]
  rcases Nat.le_total (leastPower c.maxCapacity) c.firstSlots with hle | hle
  · rw [Nat.max_eq_right hle]
    exact c.isPowerOfTwo_firstSlots
  · rw [Nat.max_eq_left hle]
    exact isPowerOfTwo_leastPower c.maxCapacity

/-- Sizes up to 2^63 are rounded up. -/
theorem capacities_eq {c : Config} (hfirst : c.initialCapacity ≤ 1 <<< 63)
    (hmost : c.maxCapacity ≤ 1 <<< 63) : c.capacities = .ok (c.firstSlots, c.mostSlots) := by
  rw [capacities, roundUp, roundUp, asWord, asWord, if_pos (leastPower_lt_wordLimit_iff.2 hfirst),
    if_pos (leastPower_lt_wordLimit_iff.2 hmost)]
  rfl

/-- A size beyond 2^63 is not. -/
theorem capacities_eq_error {c : Config}
    (h : ¬ (c.initialCapacity ≤ 1 <<< 63 ∧ c.maxCapacity ≤ 1 <<< 63)) :
    c.capacities = .error .sizeTooLarge := by
  rw [← leastPower_lt_wordLimit_iff, ← leastPower_lt_wordLimit_iff] at h
  rw [capacities, roundUp, roundUp, asWord, asWord]
  by_cases hfirst : leastPower c.initialCapacity < wordLimit
  · rw [if_pos hfirst, if_neg fun hmost => h ⟨hfirst, hmost⟩]
    rfl
  · rw [if_neg hfirst]
    rfl

end Config

end NameIndex
