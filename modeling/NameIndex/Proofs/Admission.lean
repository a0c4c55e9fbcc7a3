import NameIndex.Level.ChaCha
import NameIndex.Proofs.Check
import NameIndex.Proofs.Enroll

/-!
# Which entries are admitted

An index that passes its check refuses an unlinked entry in two cases only: it holds the name
already, or it has no room, which means that all slots of a table of the greatest size are occupied.
The name is asked for first, so a full index refuses a name that it holds as a duplicate. A refusal
hands the entry back and leaves the index as it was, but for the level draws and, where there is no
room, for one cookie (`Admission`). An entry that is not refused is stored under its cookie. A new
name takes a cookie in any case, and where none is left, or no room for the table that the name asks
for, the enrolment stops.
-/

namespace NameIndex

namespace Index

variable {G V : Type} [LevelSource G]

/-- What an enrolment of `e` answers, and what a refusal leaves behind. -/
structure Admission (ix : Index G V) (e : Entry V) (result : Except (EnrollError V) Cookie)
    (ix' : Index G V) : Prop where
  /-- The entry is refused as a duplicate exactly if its name is held. -/
  duplicate_iff :
    (∃ err, result = .error err ∧ err.reason = .duplicateKey) ↔ ix.HasName e.name
  /-- It is refused for want of a slot exactly if its name is new and the index is full. -/
  collision_iff :
    (∃ err c slot, result = .error err ∧ err.reason = .cookieCollision c slot) ↔
      ¬ ix.HasName e.name ∧ ix.IsFull
  /-- Otherwise it gets a cookie. -/
  admitted_iff : (∃ c, result = .ok c) ↔ ¬ ix.HasName e.name ∧ ¬ ix.IsFull
  /-- It is then stored under that cookie with the height drawn, and the cookie is the last one. -/
  stored : ∀ c, result = .ok c →
    ix'.Stored e c (LevelSource.drawHeight ix.source).1 ∧ ix'.lastCookie = c.val
  /-- A refused entry is handed back as it was. -/
  handedBack : ∀ err, result = .error err → err.entry = e
  /-- A duplicate costs its draws. -/
  after_duplicate : ∀ err, result = .error err → err.reason = .duplicateKey →
    ix' = { ix with source := (LevelSource.drawHeight ix.source).2 }
  /-- Want of a slot costs the draws and a cookie. -/
  after_collision : ∀ err c slot, result = .error err → err.reason = .cookieCollision c slot →
    ix' = { ix with
      lastCookie := ix.lastCookie + 1
      source := (LevelSource.drawHeight ix.source).2 }
  /-- The cookie reported is the one lost. -/
  cookie_reported : ∀ err c slot, result = .error err → err.reason = .cookieCollision c slot →
    c.val = ix'.lastCookie
  /-- The slot reported is where that cookie belongs, and it is occupied. -/
  slot_reported : ∀ err c slot, result = .error err → err.reason = .cookieCollision c slot →
    slot = c.val % ix.capacity ∧ ∃ held ∈ ix.table.live, ix.table.entryAt slot = some held

variable {ix ix' : Index G V} {e : Entry V}

/-- The refusal of a name that is held. -/
theorem Admission.duplicate (hheld : ix.HasName e.name) :
    ix.Admission e (.error ⟨.duplicateKey, e⟩)
      { ix with source := (LevelSource.drawHeight ix.source).2 } where
  duplicate_iff := by simp [hheld]
  collision_iff := by simp [hheld]
  admitted_iff := by simp [hheld]
  stored := nofun
  handedBack := by
    rintro err ⟨⟩
    rfl
  after_duplicate := fun _ _ _ => rfl
  after_collision := by
    rintro err c slot ⟨⟩ ⟨⟩
  cookie_reported := by
    rintro err c slot ⟨⟩ ⟨⟩
  slot_reported := by
    rintro err c slot ⟨⟩ ⟨⟩

/-- The refusal of a new name by a full index. -/
theorem Admission.collision (hnew : ¬ ix.HasName e.name) (hfull : ix.IsFull)
    (hslot : ∃ held, ix.table.entryAt (ix.table.slotOf ⟨ix.lastCookie + 1⟩) = some held) :
    ix.Admission e
      (.error ⟨.cookieCollision ⟨ix.lastCookie + 1⟩ (ix.table.slotOf ⟨ix.lastCookie + 1⟩), e⟩)
      { ix with
        lastCookie := ix.lastCookie + 1
        source := (LevelSource.drawHeight ix.source).2 } where
  duplicate_iff := by simp [hnew]
  collision_iff := by simp [hnew, hfull]
  admitted_iff := by simp [hfull]
  stored := nofun
  handedBack := by
    rintro err ⟨⟩
    rfl
  after_duplicate := by
    rintro err ⟨⟩ ⟨⟩
  after_collision := fun _ _ _ _ _ => rfl
  cookie_reported := by
    rintro err c slot ⟨⟩ ⟨⟩
    rfl
  slot_reported := by
    rintro err c slot ⟨⟩ ⟨⟩
    obtain ⟨held, hheld⟩ := hslot
    exact ⟨rfl, held, CookieTable.mem_live_iff.2 ⟨_, hheld⟩, hheld⟩

/-- The enrolment of a new name where there is room. -/
theorem Admission.admitted (hnew : ¬ ix.HasName e.name) (hroom : ¬ ix.IsFull) {c : Cookie}
    (hstored : ix'.Stored e c (LevelSource.drawHeight ix.source).1)
    (hlast : ix'.lastCookie = c.val) : ix.Admission e (.ok c) ix' where
  duplicate_iff := by simp [hnew]
  collision_iff := by simp [hroom]
  admitted_iff := by simp [hnew, hroom]
  stored := by
    rintro c ⟨⟩
    exact ⟨hstored, hlast⟩
  handedBack := nofun
  after_duplicate := nofun
  after_collision := nofun
  cookie_reported := nofun
  slot_reported := nofun

/-- Every unlinked entry is enrolled, or refused for the reason that there is, as long as the index
holds its name or has the means for a new one. Without them a new name is not answered. -/
theorem enroll_exact {n : Nat} (hcap : ix.capacity.isPowerOfTwo)
    (hmax : ix.maxCapacity.isPowerOfTwo) (hle : ix.capacity ≤ ix.maxCapacity)
    (hcheck : ix.check = .ok n) (he : e.isLinked = false) :
    (ix.HasName e.name ∨ ix.HasMeans →
        ∃ result ix', ix.enroll e = .ok (result, ix') ∧ ix.Admission e result ix') ∧
      (¬ ix.HasName e.name → ¬ ix.HasMeans → ix.enroll e = .error ix.shortage) := by
  obtain ⟨ns, h⟩ := exists_layout_of_check hcap hcheck
  have hfull := h.isFull_iff hmax hle
  by_cases hheld : ix.HasName e.name
  · have hnamed : named e.name ns = true := h.hasName_iff.1 hheld
    exact ⟨fun _ => ⟨_, _, h.enroll_duplicate he hnamed, .duplicate hheld⟩,
      fun hnew => absurd hheld hnew⟩
  have hnamed : named e.name ns = false := by
    rw [h.hasName_iff, Bool.not_eq_true] at hheld
    exact hheld
  refine ⟨fun hserved => ?_, fun _ hmeans => h.enroll_eq_error he hnamed hmeans⟩
  have hmeans : ix.HasMeans := hserved.resolve_left hheld
  -- The room is that after growing, which only a full index lacks.
  by_cases hroom : ix.grownCapacity ≤ ix.count
  · have hoccupied := h.exists_entryAt (hfull.1 hroom) ⟨ix.lastCookie + 1⟩
    exact ⟨_, _, h.enroll_full he hnamed hmeans hroom,
      .collision hheld (hfull.1 hroom) hoccupied⟩
  · obtain ⟨pre, post, c, ix', -, -, -, henroll, h', -, hlast, -⟩ :=
      h.enroll_fresh he hnamed hmeans (Nat.not_le.1 hroom)
    exact ⟨_, _, henroll, .admitted hheld (fun hoccupied => hroom (hfull.2 hoccupied)) h'.stored
      hlast⟩

/-- An index of one slot, which is occupied. -/
def crammed : Index ChaCha Nat where
  table :=
    ⟨#[some { name := [97], value := 7, cookie := ⟨1⟩, links := [.null] }], by decide⟩
  heads := [⟨1⟩]
  tail := ⟨1⟩
  lastCookie := 1
  count := 1
  maxCapacity := 1
  source := .ofSeed 0

/-- The index refuses a new name for want of a slot, and the name that it holds as a duplicate. -/
theorem enroll_exact_crammed :
    crammed.check = .ok 1 ∧
      (∃ err ix', crammed.enroll { name := [98], value := 8 } = .ok (.error err, ix') ∧
        err.reason = .cookieCollision ⟨2⟩ 0 ∧ ix'.lastCookie = 2) ∧
      ∃ err ix', crammed.enroll { name := [97], value := 8 } = .ok (.error err, ix') ∧
        err.reason = .duplicateKey := by
  have hcheck : crammed.check = .ok 1 := by rfl
  have hcap : crammed.capacity.isPowerOfTwo := ⟨0, rfl⟩
  have hmax : crammed.maxCapacity.isPowerOfTwo := ⟨0, rfl⟩
  have hfull : crammed.IsFull := ⟨rfl, rfl⟩
  have hmeans : crammed.HasMeans := ⟨by decide, 2, by decide⟩
  have hheld : crammed.HasName [97] := ⟨_, List.mem_singleton.2 rfl, rfl⟩
  have hnew : ¬ crammed.HasName [98] := by
    simp [HasName, crammed, CookieTable.live]
  obtain ⟨hanswers, -⟩ :=
    enroll_exact (e := { name := [98], value := 8 }) hcap hmax (Nat.le_refl _) hcheck rfl
  obtain ⟨_, ix, henroll, h⟩ := hanswers (.inr hmeans)
  obtain ⟨err, c, slot, rfl, hreason⟩ := h.collision_iff.2 ⟨hnew, hfull⟩
  obtain ⟨hanswers', -⟩ :=
    enroll_exact (e := { name := [97], value := 8 }) hcap hmax (Nat.le_refl _) hcheck rfl
  obtain ⟨_, ix', henroll', h'⟩ := hanswers' (.inl hheld)
  obtain ⟨err', rfl, hreason'⟩ := h'.duplicate_iff.2 hheld
  have hlast : ix.lastCookie = 2 := by
    rw [h.after_collision err c slot rfl hreason]
    rfl
  obtain ⟨hslot, -⟩ := h.slot_reported err c slot rfl hreason
  have hcookie := h.cookie_reported err c slot rfl hreason
  rw [hcookie, hlast, show crammed.capacity = 1 from rfl] at hslot
  have hc : c = ⟨2⟩ := by
    rw [← hlast, ← hcookie]
  refine ⟨hcheck, ⟨err, ix, henroll, ?_, hlast⟩, err', ix', henroll', hreason'⟩
  rw [hreason, hc, hslot]

/-- An index that has passed every cookie may lack a name without being full. -/
theorem spent_vacant (source : ChaCha) :
    ¬ (spent source).HasName [98] ∧ ¬ (spent source).IsFull := by
  refine ⟨?_, fun hfull => absurd (show 1 = 2 from hfull.1) (by decide)⟩
  simp [HasName, spent, lone, CookieTable.live]

/-- So may one whose slots are all occupied and may not double. -/
theorem stuck_vacant (source : ChaCha) :
    ¬ (stuck source).HasName [99] ∧ ¬ (stuck source).IsFull := by
  refine ⟨?_, fun hfull => absurd (show 2 = 3 from hfull.2) (by decide)⟩
  simp [HasName, stuck, CookieTable.live]

/-- An index that has passed every cookie neither admits a new name nor refuses it, though it passes
its check and has a free slot. -/
theorem enroll_spent :
    (spent (ChaCha.ofSeed 0)).check = .ok 1 ∧ ¬ (spent (ChaCha.ofSeed 0)).HasName [98] ∧
      ¬ (spent (ChaCha.ofSeed 0)).IsFull ∧
      (spent (ChaCha.ofSeed 0)).enroll { name := [98], value := 8 } = .error .cookiesSpent := by
  obtain ⟨hnew, hroom⟩ := spent_vacant (ChaCha.ofSeed 0)
  exact ⟨by rfl, hnew, hroom, by decide +kernel⟩

end Index

end NameIndex
