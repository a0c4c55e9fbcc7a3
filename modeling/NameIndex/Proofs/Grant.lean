import NameIndex.Level.ChaCha
import NameIndex.Proofs.Check
import NameIndex.Proofs.Enroll

/-!
# Which cookie is given out

An index that passes its check always comes to an end when it looks for a cookie: it finds one, or
stops at what it is short of. The cookie of an enrolment is the least one after the last whose slot
is free in the table as it is then, grown or not (`Grant`). On the way to it no more cookies are
passed over than there are entries, since each of them belongs in the slot of another entry
(`FirstFree.sub_le`); and its slot is still free when the entry comes to be stored there.
-/

namespace NameIndex

variable {G V : Type}

namespace Index

variable {ix ix' : Index G V} {ns : List (Node V)} {e : Entry V} {c : Cookie}

/-- The search for a free slot ends at the first one if it goes on as far as that. -/
theorem Layout.nextFree_eq (h : ix.Layout ns) {last steps : Nat}
    (hfirst : FirstFree (ns.map (·.cookie)) ix.capacity last c) (hsteps : c.val ≤ last + steps) :
    ix.table.nextFree steps last = .ok c := by
  refine CookieTable.nextFree_eq_ok_iff.2
    ⟨hfirst.after, hsteps, hfirst.word, h.isFree_iff.2 hfirst.free, fun k hk hkc => ?_⟩
  obtain ⟨d, hd, hslot⟩ := hfirst.least k hk hkc
  rw [Bool.eq_false_iff]
  exact fun hfree => h.isFree_iff.1 hfree d hd hslot

/-- Looking for a cookie comes to an end. -/
theorem Layout.exists_allocate (h : ix.Layout ns) (hmeans : ix.HasMeans) :
    ∃ result ix₁, ix.allocate = .ok (result, ix₁) := by
  rcases Nat.lt_or_ge ix.count ix.grownCapacity with hroom | hfull
  · obtain ⟨c, table, hallocate, -⟩ := h.allocate_free hmeans hroom
    exact ⟨_, _, hallocate⟩
  · exact ⟨_, _, h.allocate_full hmeans hfull⟩

variable [LevelSource G]

/-- The index when the height of a new entry has been drawn. -/
def drawn (ix : Index G V) : Index G V :=
  { ix with source := (LevelSource.drawHeight ix.source).2 }

/-- The steps of an enrolment that gives out a cookie. -/
theorem exists_splice_of_enroll (h : ix.enroll e = .ok (.ok c, ix')) :
    e.isLinked = false ∧ ∃ p ix₁,
      ix.drawn.search e.name .null = .ok p ∧ p.found = false ∧
      ix.drawn.allocate = .ok (.ok c, ix₁) ∧
      ix₁.splice e c (LevelSource.drawHeight ix.source).1 p = .ok ix' := by
  have hsteps := h
  rw [enroll] at hsteps
  obtain ⟨_, hexpect, hsteps⟩ := bind_eq_ok_iff.1 hsteps
  obtain ⟨p, hsearch, -⟩ := bind_eq_ok_iff.1 hsteps
  have he : e.isLinked = false := by
    cases hlinked : e.isLinked with
    | false => rfl
    | true =>
      rw [hlinked] at hexpect
      cases hexpect
  rw [enroll_eq he hsearch] at h
  refine ⟨he, p, ?_⟩
  cases hfound : p.found with
  | true =>
    rw [hfound] at h
    cases h
  | false =>
    rw [hfound, if_neg Bool.false_ne_true] at h
    obtain ⟨⟨result, ix₁⟩, hallocate, h⟩ := bind_eq_ok_iff.1 h
    cases result with
    | error reason => cases h
    | ok c₁ =>
      obtain ⟨ix₂, hsplice, h⟩ := bind_eq_ok_iff.1 h
      cases h
      exact ⟨ix₁, hsearch, rfl, hallocate, hsplice⟩

/-- What is known of the cookie `c` of a new entry `e`, and of the index after its enrolment. -/
structure Grant (ix : Index G V) (e : Entry V) (c : Cookie) (ix' : Index G V) : Prop where
  /-- The table has doubled if it was half full and may be twice as large. -/
  capacity : ix'.capacity = ix.grownCapacity
  /-- The cookie is the least one after the last whose slot in that table is free. -/
  first : FirstFree (ix.table.live.map Entry.cookie) ix'.capacity ix.lastCookie c
  /-- It is the last one now. -/
  last : ix'.lastCookie = c.val
  /-- No more cookies are passed over than there are entries. -/
  passed : c.val - ix.lastCookie ≤ ix.count + 1
  /-- As many looks at a slot are enough to find it, and its slot is free when the entry comes. -/
  spliced : ∃ p ix₁,
    ix.drawn.search e.name .null = .ok p ∧ ix.drawn.allocate = .ok (.ok c, ix₁) ∧
    ix₁.table.nextFree (ix.count + 1) ix.lastCookie = .ok c ∧ ix₁.table.isFree c = true ∧
    ix₁.splice e c (LevelSource.drawHeight ix.source).1 p = .ok ix'
  /-- The cookie finds the entry there, with the height drawn for it. -/
  stored : ix'.Stored e c (LevelSource.drawHeight ix.source).1

/-- The cookie that a laid-out index gives out. -/
theorem Layout.grant (h : ix.Layout ns) (henroll : ix.enroll e = .ok (.ok c, ix')) :
    ix.Grant e c ix' := by
  obtain ⟨he, p, ix₁, hsearch, -, hallocate, hsplice⟩ := exists_splice_of_enroll henroll
  have hdrawn : ix.drawn.Layout ns := h.withSource _
  have hname : named e.name ns = false := by
    by_contra hheld
    rw [h.enroll_duplicate he (Bool.not_eq_false _ ▸ hheld)] at henroll
    cases henroll
  have hmeans : ix.HasMeans := by
    by_contra hshort
    rw [h.enroll_eq_error he hname hshort] at henroll
    cases henroll
  have hmeans' : ix.drawn.HasMeans := (hasMeans_withSource ix _).2 hmeans
  -- Of the three outcomes of an enrolment this one is left.
  have hroom : ix.count < ix.grownCapacity := by
    by_contra hfull
    rw [hdrawn.allocate_full hmeans' (Nat.not_lt.1 hfull)] at hallocate
    cases hallocate
  obtain ⟨pre, post, c₁, ix₂, -, -, -, henroll₁, hlayout', hfirst, hlast, hcap, -⟩ :=
    h.enroll_fresh he hname hmeans hroom
  rw [henroll] at henroll₁
  cases henroll₁
  obtain ⟨c₂, table, hallocate₂, hcap₂, hlayout, hfree, -⟩ := hdrawn.allocate_free hmeans' hroom
  rw [hallocate] at hallocate₂
  cases hallocate₂
  have hpassed : c.val - ix.lastCookie ≤ ix.count + 1 := by
    have hle := hfirst.sub_le
    rwa [List.length_map, ← h.count] at hle
  have hsearched : table.nextFree (ix.count + 1) ix.lastCookie = .ok c := by
    rw [show ix.grownCapacity = table.capacity from hcap₂.symm] at hfirst
    exact hlayout.nextFree_eq hfirst (by omega)
  refine ⟨hcap, ?_, hlast, hpassed, ⟨p, _, hsearch, hallocate, hsearched, hfree, hsplice⟩,
    hlayout'.stored⟩
  rw [hcap]
  exact hfirst.congr fun d => h.cookies_perm.mem_iff.symm

/-- An index that passes its check comes to an end when it looks for a cookie, and finds one or
refuses if it has the means. Whatever entry it enrolls, the cookie is the least one after the last
whose slot is free once the table has grown, it is found within one look more than there are
entries, and the entry is stored in its slot. -/
theorem grant_exact {n : Nat} (hcap : ix.capacity.isPowerOfTwo) (hcheck : ix.check = .ok n) :
    (ix.HasMeans → ∃ result ix₁, ix.allocate = .ok (result, ix₁)) ∧
      (¬ ix.HasMeans → ix.allocate = .error ix.shortage) ∧
      ∀ (e : Entry V) (c : Cookie) (ix' : Index G V),
        ix.enroll e = .ok (.ok c, ix') → ix.Grant e c ix' := by
  obtain ⟨ns, h⟩ := exists_layout_of_check hcap hcheck
  exact ⟨h.exists_allocate, h.allocate_eq_error, fun e c ix' henroll => h.grant henroll⟩

/-- An index of two slots that may not grow, with an entry in the slot of the next cookie. -/
def pinned : Index ChaCha Nat := { lone (.ofSeed 0) with lastCookie := 2, maxCapacity := 2 }

/-- The cookie after the last one is passed over. -/
theorem grant_exact_pinned :
    pinned.check = .ok 1 ∧ ∃ ix', pinned.enroll { name := [98], value := 8 } = .ok (.ok ⟨4⟩, ix') ∧
      ix'.capacity = 2 ∧ ix'.lastCookie = 4 := by
  have hcheck : pinned.check = .ok 1 := by rfl
  have hcap : pinned.capacity.isPowerOfTwo := ⟨1, rfl⟩
  obtain ⟨ns, h⟩ := exists_layout_of_check hcap hcheck
  have hname : named [98] ns = false := by
    rw [Bool.eq_false_iff, ne_eq, ← h.hasName_iff]
    simp [HasName, pinned, lone, CookieTable.live]
  have hmeans : pinned.HasMeans := ⟨by decide, 4, by decide⟩
  obtain ⟨-, -, c, ix', -, -, -, henroll, -⟩ :=
    h.enroll_fresh (e := { name := [98], value := 8 }) rfl hname hmeans (by decide)
  obtain ⟨-, -, hgrant⟩ := grant_exact hcap hcheck
  obtain ⟨hcap', hfirst, hlast, -, -⟩ := hgrant _ c ix' henroll
  have hcap' : ix'.capacity = 2 := hcap'
  rw [hcap'] at hfirst
  -- Of the two cookies after the last one the first belongs in the occupied slot.
  have hafter : 2 < c.val := hfirst.after
  have hnear : c.val ≤ 2 + 2 := hfirst.near
  have hfree : 1 % 2 ≠ c.val % 2 := hfirst.free ⟨1⟩ (by decide)
  have hval : c.val = 4 := by omega
  obtain rfl : c = ⟨4⟩ := congrArg Cookie.mk hval
  exact ⟨hcheck, ix', henroll, hcap', hlast⟩

end Index

end NameIndex
