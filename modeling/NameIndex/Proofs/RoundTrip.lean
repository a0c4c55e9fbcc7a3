import NameIndex.Proofs.Admission
import NameIndex.Proofs.Removals

/-!
# Enrolling and removing again

An enrolment adds one node to those that lay an index out, and the removal of its cookie takes that
node away again, so the index threads the same nodes as before. Those determine every link
(`Threaded.get?_eq`), and the levels that the enrolment brought into use pass none of them
(`Layout.eq_raise`). What the nodes do not determine is all that can differ: the last cookie, the
source of draws, and a table that has grown (`Restored`).
-/

namespace NameIndex

variable {G V : Type}

namespace Index

variable {ix ix' : Index G V} {ns : List (Node V)} {e : Entry V} {c : Cookie}

/-- A cookie leads to the same entry, with the same links, wherever the same nodes are threaded. -/
theorem Threaded.get?_eq (h : ix.Threaded ns) (h' : ix'.Threaded ns) (d : Cookie) :
    ix'.get? d = ix.get? d :=
  Option.ext fun e => by rw [get?, get?, h'.get?_eq_some_iff, h.get?_eq_some_iff]

/-- An index that threads the same nodes at more levels is the one with new levels in use, but for
what the nodes do not determine. -/
theorem Layout.eq_raise (h : ix.Layout ns) (h' : ix'.Threaded ns) {height : Nat}
    (hheight : height ≤ maxLevels) (hlevels : ix'.heads.length = max ix.heads.length height) :
    ix' = { ix.raise height with
      table := ix'.table
      lastCookie := ix'.lastCookie
      maxCapacity := ix'.maxCapacity
      source := ix'.source } := by
  have hraised : ({ ix.raise height with
      table := ix'.table
      lastCookie := ix'.lastCookie
      maxCapacity := ix'.maxCapacity
      source := ix'.source } : Index G V).Threaded ns :=
    { h.raise hheight with stores := h'.stores, issued := h'.issued }
  refine hraised.eq_of_sameFrame h' ⟨rfl, ?_, rfl, rfl, rfl⟩
  rw [hlevels, ← length_heads_raise]

variable [LevelSource G]

/-- What differs from `ix` in the index left when an enrolment under the cookie `c` is undone. -/
structure Restored (ix : Index G V) (c : Cookie) (ix' : Index G V) : Prop where
  /-- Every cookie leads to the same entry, with the same links. -/
  entries : ∀ d, ix'.get? d = ix.get? d
  /-- The levels start where they did, and new ones are without entries. -/
  heads : ix'.heads = ix.heads ++
    List.replicate ((LevelSource.drawHeight ix.source).1 - ix.heads.length) .null
  /-- The tail is the same. -/
  tail : ix'.tail = ix.tail
  /-- The number of entries is the same. -/
  count : ix'.count = ix.count
  /-- The cookie remains the last one given out. -/
  lastCookie : ix'.lastCookie = c.val
  /-- The draws are spent. -/
  source : ix'.source = (LevelSource.drawHeight ix.source).2
  /-- The table has as many slots as the enrolment gave it. -/
  capacity : ix'.capacity = ix.grownCapacity
  /-- It is the same table unless it has grown. -/
  table : ix'.capacity = ix.capacity → ix'.table = ix.table
  /-- It may grow to as many slots as before. -/
  maxCapacity : ix'.maxCapacity = ix.maxCapacity

/-- The removal of an entry that has just been enrolled leaves the index that was laid out
before. -/
theorem Layout.remove_enroll (h : ix.Layout ns) (he : e.isLinked = false)
    (hname : named e.name ns = false) (hmeans : ix.HasMeans)
    (hroom : ix.count < ix.grownCapacity) :
    ∃ c ix₁ ix₂, ix.enroll e = .ok (.ok c, ix₁) ∧ ix₁.remove c = .ok (some e.unlinked, ix₂) ∧
      ix.Restored c ix₂ := by
  obtain ⟨pre, post, c, ix₁, rfl, -, -, henroll, h₁, -, hlast, hcap, hlevels, hmax, hsource⟩ :=
    h.enroll_fresh he hname hmeans hroom
  obtain ⟨ix₂, hremove, h₂, hframe⟩ := h₁.remove_some
  have hraise := h.eq_raise h₂ (LevelSource.drawHeight_le ix.source) (hframe.levels.trans hlevels)
  refine ⟨c, ix₁, ix₂, henroll, hremove, ?_⟩
  exact {
    entries := h.get?_eq h₂
    heads := by
      rw [hraise]
      rfl
    tail := h₂.tail.trans h.tail.symm
    count := h₂.count.trans h.count.symm
    lastCookie := hframe.lastCookie.trans hlast
    source := hframe.source.trans hsource
    capacity := hframe.capacity.trans hcap
    table := h₂.stores.eq_of_capacity h.stores
    maxCapacity := hframe.maxCapacity.trans hmax }

/-- An index that passes its check and has room enrolls any unlinked entry of a new name, if it has
the means for it. Removing its cookie hands the name and value back and restores the index. -/
theorem enroll_remove_restores {n : Nat} (hcap : ix.capacity.isPowerOfTwo)
    (hcheck : ix.check = .ok n) (he : e.isLinked = false) (hnew : ¬ ix.HasName e.name)
    (hroom : ix.HasRoom) (hmeans : ix.HasMeans) :
    ∃ c ix₁ ix₂, ix.enroll e = .ok (.ok c, ix₁) ∧ ix₁.remove c = .ok (some e.unlinked, ix₂) ∧
      ix.Restored c ix₂ := by
  obtain ⟨ns, h⟩ := exists_layout_of_check hcap hcheck
  rw [h.hasName_iff, Bool.not_eq_true] at hnew
  exact h.remove_enroll he hnew hmeans (h.hasRoom_iff.1 hroom)

/-- An enrolment that doubles the table and brings a level into use is undone. -/
theorem enroll_remove_restores_lone :
    (lone (ChaCha.ofSeed 3)).check = .ok 1 ∧ ∃ c ix₁ ix₂,
      (lone (ChaCha.ofSeed 3)).enroll { name := [98], value := 8 } = .ok (.ok c, ix₁) ∧
      ix₁.remove c = .ok (some { name := [98], value := 8 }, ix₂) ∧
      ix₂.heads = [⟨1⟩, .null] ∧ ix₂.capacity = 4 := by
  have hcheck : (lone (ChaCha.ofSeed 3)).check = .ok 1 := by rfl
  have hdrawn : (LevelSource.drawHeight (ChaCha.ofSeed 3)).1 = 2 := by decide +kernel
  have hnew : ¬ (lone (ChaCha.ofSeed 3)).HasName [98] := by
    simp [HasName, lone, CookieTable.live]
  obtain ⟨c, ix₁, ix₂, henroll, hremove, hrestored⟩ :=
    enroll_remove_restores (e := { name := [98], value := 8 }) ⟨1, rfl⟩ hcheck rfl hnew
      (.inl (by decide)) ⟨by decide, 2, by decide⟩
  have hheads := hrestored.heads
  rw [show (lone (ChaCha.ofSeed 3)).source = .ofSeed 3 from rfl, hdrawn] at hheads
  exact ⟨hcheck, c, ix₁, ix₂, henroll, hremove, hheads, hrestored.capacity⟩

/-- There is nothing to undo where no entry can be added, although the index passes its check and is
not full at its greatest size: one has passed every cookie, and one may not double its slots. -/
theorem enroll_barred :
    (spent (ChaCha.ofSeed 3)).check = .ok 1 ∧ ¬ (spent (ChaCha.ofSeed 3)).HasName [98] ∧
      ¬ (spent (ChaCha.ofSeed 3)).IsFull ∧
      (spent (ChaCha.ofSeed 3)).enroll { name := [98], value := 8 } = .error .cookiesSpent ∧
      (stuck (ChaCha.ofSeed 3)).check = .ok 2 ∧ ¬ (stuck (ChaCha.ofSeed 3)).HasName [99] ∧
      ¬ (stuck (ChaCha.ofSeed 3)).IsFull ∧
      ((stuck (ChaCha.ofSeed 3)).enroll { name := [99], value := 9 }).map (fun r => r.1) =
        .ok (.error ⟨.cookieCollision ⟨3⟩ 1, { name := [99], value := 9 }⟩) := by
  obtain ⟨hnew, hroom⟩ := spent_vacant (ChaCha.ofSeed 3)
  obtain ⟨hnew', hroom'⟩ := stuck_vacant (ChaCha.ofSeed 3)
  exact ⟨by rfl, hnew, hroom, by decide +kernel, by rfl, hnew', hroom', by decide +kernel⟩

end Index

end NameIndex
