import NameIndex.Proofs.Layout
import NameIndex.Proofs.Outcome

/-!
# New indexes

An index is made exactly when its sizes can be rounded up to powers of two and there is room for its
first slots (`exists_create_iff`). A new index has as many free slots as it was to have at first, no
levels and no entries (`New`), so it is laid out by no nodes (`New.layout`).
-/

namespace NameIndex

variable {G V : Type} [LevelSource G]

/-- The state from which a new index draws. -/
def Config.seeded (config : Config) (entropy : UInt64) : G :=
  LevelSource.seeded (config.seed.getD entropy)

namespace Index

variable {ix : Index G V} {config : Config} {entropy : UInt64}

/-- The index is as it is made. -/
structure New (ix : Index G V) (config : Config) (entropy : UInt64) : Prop where
  /-- It has its first slots. -/
  capacity : ix.capacity = config.firstSlots
  /-- They are free. -/
  stores : ix.table.Stores []
  /-- No level is in use. -/
  heads : ix.heads = []
  /-- There is no last entry. -/
  tail : ix.tail = .null
  /-- No cookie has been given out. -/
  lastCookie : ix.lastCookie = 0
  /-- There are no entries. -/
  count : ix.count = 0
  /-- The table may grow to its greatest size. -/
  maxCapacity : ix.maxCapacity = config.mostSlots
  /-- Nothing has been drawn. -/
  source : ix.source = config.seeded entropy

/-- An index of sizes that fit is made. -/
theorem exists_create (h : config.Fits) (entropy : UInt64) :
    ∃ ix : Index G V, create config entropy = .ok ix ∧ ix.New config entropy := by
  have hcreate : (create config entropy : Except Fault (Index G V)) = .ok {
      table := .empty config.firstSlots h.room
      heads := []
      tail := .null
      lastCookie := 0
      count := 0
      maxCapacity := config.mostSlots
      source := config.seeded entropy } := by
    rw [create, Config.capacities_eq h.initial h.greatest, ok_bind]
    dsimp only
    rw [CookieTable.withCapacity_eq h.room, ok_bind]
    rfl
  exact ⟨_, hcreate, CookieTable.capacity_empty h.room, CookieTable.stores_empty h.room, rfl, rfl,
    rfl, rfl, rfl, rfl⟩

/-- An index of other sizes is not: they cannot be rounded up, or there is no room for its slots. -/
theorem exists_create_eq_error (h : ¬ config.Fits) (entropy : UInt64) :
    ∃ f, (create config entropy : Except Fault (Index G V)) = .error f ∧
      (f = .sizeTooLarge ∨ f = .noRoom) := by
  by_cases hsizes : config.initialCapacity ≤ 1 <<< 63 ∧ config.maxCapacity ≤ 1 <<< 63
  · have hroom : entryLimit ≤ config.firstSlots :=
      Nat.not_lt.1 fun hroom => h ⟨hsizes.1, hsizes.2, hroom⟩
    refine ⟨.noRoom, ?_, .inr rfl⟩
    rw [create, Config.capacities_eq hsizes.1 hsizes.2, ok_bind]
    dsimp only
    rw [CookieTable.withCapacity_eq_error hroom, error_bind]
  · refine ⟨.sizeTooLarge, ?_, .inl rfl⟩
    rw [create, Config.capacities_eq_error hsizes, error_bind]

/-- An index is made exactly when its sizes fit. -/
theorem exists_create_iff :
    (∃ ix : Index G V, create config entropy = .ok ix) ↔ config.Fits := by
  constructor
  · rintro ⟨ix, hcreate⟩
    by_contra hfits
    obtain ⟨f, herror, -⟩ := exists_create_eq_error (G := G) (V := V) hfits entropy
    rw [hcreate] at herror
    cases herror
  · intro hfits
    obtain ⟨ix, hcreate, -⟩ := exists_create (G := G) (V := V) hfits entropy
    exact ⟨ix, hcreate⟩

/-- What stops an index from being made. -/
theorem eq_of_create_eq_error {f : Fault}
    (h : (create config entropy : Except Fault (Index G V)) = .error f) :
    f = .sizeTooLarge ∨ f = .noRoom := by
  have hfits : ¬ config.Fits := fun hfits => by
    obtain ⟨ix, hcreate, -⟩ := exists_create (G := G) (V := V) hfits entropy
    rw [h] at hcreate
    cases hcreate
  obtain ⟨f', herror, hf⟩ := exists_create_eq_error (G := G) (V := V) hfits entropy
  rw [h] at herror
  cases herror
  exact hf

/-- An index that is made is new. -/
theorem new_of_create (h : create config entropy = .ok ix) : ix.New config entropy := by
  have hfits : config.Fits := exists_create_iff.1 ⟨ix, h⟩
  obtain ⟨ix', hcreate, hnew⟩ := exists_create (G := G) (V := V) hfits entropy
  rw [h] at hcreate
  cases hcreate
  exact hnew

/-- A new index has no nodes. -/
theorem New.layout (h : ix.New config entropy) : ix.Layout [] where
  toThreaded := by
    refine threaded_nil h.stores (fun c hc => ?_) h.tail h.count ?_
    · rw [h.heads] at hc
      exact absurd hc List.not_mem_nil
    · rw [h.heads]
      exact Nat.zero_le _
  capacity := by
    rw [h.capacity]
    exact config.isPowerOfTwo_firstSlots

/-- A new table is no larger than it may be. -/
theorem New.capacity_le (h : ix.New config entropy) : ix.capacity ≤ ix.maxCapacity := by
  rw [h.capacity, h.maxCapacity]
  exact Nat.le_max_right _ _

end Index

end NameIndex
