import Mathlib.Data.Nat.ModEq
import NameIndex.Index.Enroll
import NameIndex.Proofs.Rehash
import NameIndex.Proofs.WellFormed

/-!
# Giving out cookies

A laid-out index grows without collisions (`Layout.grow_eq`). After that it is full, and then the
entry is refused (`Layout.allocate_full`), or some slot is free. Only at its greatest size can it be
full (`Layout.isFull_iff`). Cookies in a row meet every slot before they come round, so the search
for a free one ends within one round, at the least cookie that will do (`Layout.allocate_free`).

All this takes room for the grown table and a cookie that fits in a word. `HasMeans` says from the
numbers of an index that it has both; an index that has not stops at what it is short of
(`Layout.allocate_eq_error`).
-/

namespace NameIndex

variable {G V : Type}

namespace Cookie

variable {last : Nat}

/-- A cookie comes after the last one if a word holds its number. -/
theorem after_eq (h : last + 1 < wordLimit) : Cookie.after last = .ok ⟨last + 1⟩ := by
  rw [Cookie.after, asWord, if_pos h, map_ok]

/-- None comes after that of the greatest number. -/
theorem after_eq_error (h : wordLimit ≤ last + 1) : Cookie.after last = .error .cookiesSpent := by
  rw [Cookie.after, asWord, if_neg (Nat.not_lt.2 h)]
  rfl

end Cookie

namespace CookieTable

variable {t : CookieTable V}

/-- One step of the search, while there are cookies. -/
theorem nextFree_succ {fuel last : Nat} (h : last + 1 < wordLimit) :
    t.nextFree (fuel + 1) last =
      if t.isFree ⟨last + 1⟩ then .ok ⟨last + 1⟩ else t.nextFree fuel (last + 1) := by
  rw [nextFree, Cookie.after_eq h, ok_bind]

/-- The search gives the least cookie after `last` whose slot is free, if it is in reach. -/
theorem nextFree_eq_ok_iff {fuel last : Nat} {c : Cookie} :
    t.nextFree fuel last = .ok c ↔
      last < c.val ∧ c.val ≤ last + fuel ∧ c.val < wordLimit ∧ t.isFree c = true ∧
        ∀ k, last < k → k < c.val → t.isFree ⟨k⟩ = false := by
  -- By induction on the cookies in reach; the first of them is the answer or is passed over.
  induction fuel generalizing last with
  | zero =>
    rw [nextFree]
    constructor
    · intro h
      cases h
    · intro h
      omega
  | succ fuel ih =>
    rcases Nat.lt_or_ge (last + 1) wordLimit with hword | hword
    · rw [nextFree_succ hword]
      split_ifs with hfree
      · rw [Except.ok.injEq]
        constructor
        · rintro rfl
          refine ⟨Nat.lt_succ_self _, ?_, hword, hfree, ?_⟩
          · change last + 1 ≤ last + (fuel + 1)
            omega
          · intro k h1 h2
            change k < last + 1 at h2
            omega
        · rintro ⟨hlt, -, -, -, hleast⟩
          -- A later cookie would not be the least one.
          by_contra hne
          have hval : last + 1 ≠ c.val := fun hc => hne (by rw [hc])
          have hbusy := hleast (last + 1) (Nat.lt_succ_self _) (by omega)
          rw [hfree] at hbusy
          cases hbusy
      · rw [ih]
        rw [Bool.not_eq_true] at hfree
        constructor
        · rintro ⟨h1, h2, h3, h4, h5⟩
          refine ⟨by omega, by omega, h3, h4, fun k hk hkc => ?_⟩
          by_cases hk' : k = last + 1
          · rw [hk', hfree]
          · exact h5 k (by omega) hkc
        · rintro ⟨h1, h2, h3, h4, h5⟩
          have hne : c.val ≠ last + 1 := by
            rintro hc
            rw [show c = ⟨last + 1⟩ by rw [← hc], hfree] at h4
            cases h4
          exact ⟨by omega, by omega, h3, h4, fun k hk hkc => h5 k (by omega) hkc⟩
    · -- No cookie is left, so there is none that the search could give.
      rw [nextFree, Cookie.after_eq_error hword, error_bind]
      constructor
      · intro h
        cases h
      · intro h
        omega

/-- The search finds a cookie, or there is none left in reach whose slot is free. -/
theorem exists_nextFree_or (t : CookieTable V) (fuel last : Nat) :
    (∃ c, t.nextFree fuel last = .ok c) ∨ t.nextFree fuel last = .error .cookiesSpent ∧
      ∀ k, last < k → k ≤ last + fuel → k < wordLimit → t.isFree ⟨k⟩ = false := by
  induction fuel generalizing last with
  | zero => exact .inr ⟨rfl, fun k hk hle => by omega⟩
  | succ fuel ih =>
    rcases Nat.lt_or_ge (last + 1) wordLimit with hword | hword
    · rw [nextFree_succ hword]
      split_ifs with hfree
      · exact .inl ⟨_, rfl⟩
      · refine (ih (last + 1)).imp_right fun ⟨herror, hbusy⟩ => ⟨herror, fun k hk hle hkw => ?_⟩
        by_cases hk' : k = last + 1
        · rw [hk', ← Bool.not_eq_true]
          exact hfree
        · exact hbusy k (by omega) (by omega) hkw
    · refine .inr ⟨?_, fun k hk _ hkw => by omega⟩
      rw [nextFree, Cookie.after_eq_error hword, error_bind]

end CookieTable

/-- The cookie is the least one after `last` that belongs, among so many slots, in that of no cookie
taken. -/
structure FirstFree (taken : List Cookie) (slots last : Nat) (c : Cookie) : Prop where
  /-- It comes after the last one. -/
  after : last < c.val
  /-- A word holds its number. -/
  word : c.val < wordLimit
  /-- It is met before the slots come round. -/
  near : c.val ≤ last + slots
  /-- Its slot is free. -/
  free : ∀ d ∈ taken, d.val % slots ≠ c.val % slots
  /-- Those before it belong in occupied slots. -/
  least : ∀ k, last < k → k < c.val → ∃ d ∈ taken, d.val % slots = k % slots

namespace FirstFree

variable {taken taken' : List Cookie} {slots last : Nat} {c : Cookie}

/-- Only the members of the list count. -/
theorem congr (h : FirstFree taken slots last c) (hmem : ∀ d, d ∈ taken ↔ d ∈ taken') :
    FirstFree taken' slots last c where
  after := h.after
  word := h.word
  near := h.near
  free := fun d hd => h.free d ((hmem d).2 hd)
  least := fun k hk hkc => by
    obtain ⟨d, hd, hslot⟩ := h.least k hk hkc
    exact ⟨d, (hmem d).1 hd, hslot⟩

/-- No more cookies are passed over than are taken. -/
theorem sub_le (h : FirstFree taken slots last c) : c.val - last ≤ taken.length + 1 := by
  have hnear := h.near
  -- The cookies passed over belong in slots of their own, for the slots do not come round,
  have hnodup : ((List.range (c.val - last - 1)).map fun i => (last + 1 + i) % slots).Nodup := by
    refine List.nodup_range.map_on fun i hi j hj hij => ?_
    rw [List.mem_range] at hi hj
    have hmod : i % slots = j % slots := Nat.ModEq.add_left_cancel' (last + 1) hij
    rwa [Nat.mod_eq_of_lt (by omega), Nat.mod_eq_of_lt (by omega)] at hmod
  -- and each of these slots is that of a cookie taken.
  have hsub : ((List.range (c.val - last - 1)).map fun i => (last + 1 + i) % slots) ⊆
      taken.map fun d => d.val % slots := by
    intro slot hslot
    obtain ⟨i, hi, rfl⟩ := List.mem_map.1 hslot
    rw [List.mem_range] at hi
    obtain ⟨d, hd, hdslot⟩ := h.least (last + 1 + i) (by omega) (by omega)
    exact List.mem_map.2 ⟨d, hd, hdslot⟩
  have hlen := (List.subperm_of_subset hnodup hsub).length_le
  rw [List.length_map, List.length_map, List.length_range] at hlen
  omega

end FirstFree

/-- Two powers of two of which neither is twice as large as the other are equal. -/
theorem eq_of_isPowerOfTwo {a b : Nat} (ha : a.isPowerOfTwo) (hb : b.isPowerOfTwo) (hle : a ≤ b)
    (hlt : b < a * 2) : a = b := by
  obtain ⟨i, rfl⟩ := ha
  obtain ⟨j, rfl⟩ := hb
  rw [← Nat.pow_succ] at hlt
  have hij := (Nat.pow_le_pow_iff_right (by decide)).1 hle
  have hji := (Nat.pow_lt_pow_iff_right (by decide)).1 hlt
  rw [show i = j by omega]

namespace Index

/-- Whether every slot is occupied and the table has its greatest size. -/
def IsFull (ix : Index G V) : Prop := ix.count = ix.capacity ∧ ix.capacity = ix.maxCapacity

/-- The number of slots after an enrolment has grown the table, if it does. -/
def grownCapacity (ix : Index G V) : Nat :=
  if ix.capacity ≤ ix.count * 2 ∧ ix.capacity * 2 ≤ ix.maxCapacity then ix.capacity * 2
  else ix.capacity

/-- Whether a slot is free, or there may be twice as many slots. -/
def HasRoom (ix : Index G V) : Prop := ix.count < ix.capacity ∨ ix.capacity * 2 ≤ ix.maxCapacity

/-- The index can give a new name a cookie, or refuse it for want of a slot. -/
structure HasMeans (ix : Index G V) : Prop where
  /-- There is room for the table that it needs. -/
  table : ix.grownCapacity < entryLimit
  /-- A word holds the number of a later cookie, and the slot of that one is free if there is to be
  a free slot. -/
  cookie : ∃ k, ix.lastCookie < k ∧ k < wordLimit ∧ (ix.count < ix.grownCapacity →
    ∀ e ∈ ix.table.live, e.cookie.val % ix.grownCapacity ≠ k % ix.grownCapacity)

/-- What an index without the means for a new name is short of. -/
def shortage (ix : Index G V) : Fault :=
  if ix.grownCapacity < entryLimit then .cookiesSpent else .noRoom

variable {ix : Index G V} {ns : List (Node V)}

/-- Growing takes no slot away. -/
theorem capacity_le_grownCapacity (ix : Index G V) : ix.capacity ≤ ix.grownCapacity := by
  rw [grownCapacity]
  split_ifs
  · omega
  · exact Nat.le_refl _

/-- The slot of a cookie is free when no node's cookie belongs there. -/
theorem Layout.isFree_iff (h : ix.Layout ns) {c : Cookie} :
    ix.table.isFree c = true ↔
      ∀ d ∈ ns.map (·.cookie), d.val % ix.capacity ≠ c.val % ix.capacity := by
  rw [h.stores.isFree_iff, ← map_cookie_weave [] .null ns, List.forall_mem_map]
  exact Iff.rfl

/-- A table that stores the same entries lays the index out the same. -/
theorem Layout.withTable (h : ix.Layout ns) {table : CookieTable V}
    (hcap : table.capacity.isPowerOfTwo) (hstores : table.Stores (weave [] .null ns)) :
    ({ ix with table } : Index G V).Layout ns :=
  { h with capacity := hcap, stores := hstores }

/-- The count of a laid-out index can be doubled, since no table has as many slots. -/
theorem Layout.asWord_count (h : ix.Layout ns) :
    asWord (ix.count * 2) .countTooLarge = .ok (ix.count * 2) := by
  have hcount := h.length_le_capacity
  rw [← h.count] at hcount
  have hlimit : ix.capacity < entryLimit := ix.table.capacity_lt
  have hword : entryLimit * 2 < wordLimit := by decide
  rw [asWord, if_pos (by omega)]

/-- A laid-out index grows without collisions if there is room for it, and only when it is half full
and may grow. -/
theorem Layout.grow_eq (h : ix.Layout ns) (hlimit : ix.grownCapacity < entryLimit) :
    ∃ table, ix.grow = .ok { ix with table } ∧ table.capacity = ix.grownCapacity ∧
      (ix.grownCapacity = ix.capacity → table = ix.table) ∧
      ({ ix with table } : Index G V).Layout ns := by
  have hpos := h.pos_capacity
  rw [grow, h.asWord_count, ok_bind]
  rw [grownCapacity] at hlimit ⊢
  split_ifs at hlimit ⊢ with hgrow
  · obtain ⟨table, hrehash, hcap, hstores⟩ :=
      h.stores.rehash (Nat.mul_pos hpos Nat.two_pos) hlimit (Nat.dvd_mul_right ix.capacity 2)
    have hcap2 : table.capacity.isPowerOfTwo := by
      rw [hcap]
      exact Nat.isPowerOfTwo_mul_two_of_isPowerOfTwo h.capacity
    refine ⟨table, ?_, hcap, fun hsame => by omega, h.withTable hcap2 hstores⟩
    rw [hrehash, ok_bind]
    rfl
  · exact ⟨ix.table, rfl, rfl, fun _ => rfl, h⟩

/-- Where there is no room for it, the index does not grow. -/
theorem Layout.grow_eq_error (h : ix.Layout ns) (hlimit : entryLimit ≤ ix.grownCapacity) :
    ix.grow = .error .noRoom := by
  have hcap : ix.capacity < entryLimit := ix.table.capacity_lt
  rw [grow, h.asWord_count, ok_bind]
  rw [grownCapacity] at hlimit
  split_ifs at hlimit ⊢ with hgrow
  · rw [ix.table.rehash_eq_noRoom hlimit, error_bind]
  · omega

/-- An index has room after growing exactly when it has a free slot or may grow. -/
theorem Layout.hasRoom_iff (h : ix.Layout ns) : ix.HasRoom ↔ ix.count < ix.grownCapacity := by
  have hpos := h.pos_capacity
  have hcount := h.length_le_capacity
  rw [← h.count] at hcount
  unfold HasRoom grownCapacity
  split_ifs with hgrow
  · omega
  · omega

/-- A laid-out index has no room after growing exactly when it is full. If it were at least half
full and smaller than it may be, it would grow, and then it would have room. -/
theorem Layout.isFull_iff (h : ix.Layout ns) (hmax : ix.maxCapacity.isPowerOfTwo)
    (hle : ix.capacity ≤ ix.maxCapacity) : ix.grownCapacity ≤ ix.count ↔ ix.IsFull := by
  have hpos := h.pos_capacity
  have hcount : ix.count ≤ ix.capacity := by
    rw [h.count]
    exact h.length_le_capacity
  unfold IsFull grownCapacity
  split_ifs with hgrow
  · omega
  · constructor
    · intro hfull
      have hgreatest : ix.capacity = ix.maxCapacity :=
        eq_of_isPowerOfTwo h.capacity hmax hle (by omega)
      exact ⟨by omega, hgreatest⟩
    · rintro ⟨hoccupied, -⟩
      omega

/-- Between powers of two, there is room unless the index is full. -/
theorem Layout.hasRoom_iff_not_isFull (h : ix.Layout ns) (hmax : ix.maxCapacity.isPowerOfTwo)
    (hle : ix.capacity ≤ ix.maxCapacity) : ix.HasRoom ↔ ¬ ix.IsFull := by
  rw [h.hasRoom_iff, ← h.isFull_iff hmax hle, Nat.not_le]

/-- In a full index the slot of any cookie is occupied. -/
theorem Layout.exists_entryAt (h : ix.Layout ns) (hfull : ix.IsFull) (c : Cookie) :
    ∃ e, ix.table.entryAt (ix.table.slotOf c) = some e := by
  have hlive : ix.table.live.length = ix.table.capacity := by
    calc ix.table.live.length = ix.count := by rw [h.length_live, h.count]
      _ = ix.table.capacity := hfull.1
  exact CookieTable.length_live_eq_iff.1 hlive _ (CookieTable.slotOf_lt h.pos_capacity c)

/-- A laid-out index whose slots are all occupied and which may not grow refuses an entry, and that
costs a cookie. -/
theorem Layout.allocate_full (h : ix.Layout ns) (hmeans : ix.HasMeans)
    (hfull : ix.grownCapacity ≤ ix.count) :
    ix.allocate = .ok (.error (.cookieCollision ⟨ix.lastCookie + 1⟩
      (ix.table.slotOf ⟨ix.lastCookie + 1⟩)), { ix with lastCookie := ix.lastCookie + 1 }) := by
  -- An index that grows has room afterwards, so this one does not.
  have hsame : ix.grownCapacity = ix.capacity := by
    have hle := h.length_le_capacity
    have hpos := h.pos_capacity
    rw [← h.count] at hle
    rw [grownCapacity] at hfull ⊢
    split_ifs with hgrow
    · rw [if_pos hgrow] at hfull
      omega
    · rfl
  obtain ⟨table, hgrow, -, htable, -⟩ := h.grow_eq hmeans.table
  obtain rfl := htable hsame
  obtain ⟨k, hlast, hword, -⟩ := hmeans.cookie
  have hafter : Cookie.after ix.lastCookie = .ok ⟨ix.lastCookie + 1⟩ := Cookie.after_eq (by omega)
  rw [hsame] at hfull
  rw [allocate, hgrow, ok_bind, if_pos hfull, hafter, ok_bind]
  rfl

/-- An index that has room after growing gives out the cookie that is found, if one is. -/
theorem allocate_eq_of_grow {ix' : Index G V} (hgrow : ix.grow = .ok ix')
    (hroom : ix'.count < ix'.capacity) :
    ix.allocate = (do
      let c ← ix'.table.nextFree ix'.capacity ix'.lastCookie
      return (.ok c, { ix' with lastCookie := c.val })) := by
  rw [allocate, hgrow, ok_bind, if_neg (Nat.not_le.2 hroom)]

/-- The slot of a cookie is free in the grown table when no entry's cookie belongs there. -/
theorem Layout.isFree_grown_iff (h : ix.Layout ns) {table : CookieTable V}
    (hcap : table.capacity = ix.grownCapacity) (hlayout : ({ ix with table } : Index G V).Layout ns)
    {k : Nat} :
    table.isFree ⟨k⟩ = true ↔
      ∀ e ∈ ix.table.live, e.cookie.val % ix.grownCapacity ≠ k % ix.grownCapacity := by
  have hcap' : ({ ix with table } : Index G V).capacity = ix.grownCapacity := hcap
  rw [show table = ({ ix with table } : Index G V).table from rfl, hlayout.isFree_iff, hcap']
  constructor
  · intro hfree e he
    exact hfree _ (h.cookies_perm.mem_iff.1 (List.mem_map_of_mem he))
  · intro hfree d hd
    obtain ⟨e, he, rfl⟩ := List.mem_map.1 (h.cookies_perm.mem_iff.2 hd)
    exact hfree e he

/-- An index has the means for a new name while there are as many cookies left as slots. -/
theorem Layout.hasMeans_of_lt (h : ix.Layout ns) (hlimit : ix.grownCapacity < entryLimit)
    (hword : ix.lastCookie + ix.grownCapacity < wordLimit) : ix.HasMeans := by
  have hpos : 0 < ix.grownCapacity := Nat.lt_of_lt_of_le h.pos_capacity ix.capacity_le_grownCapacity
  obtain ⟨table, -, hcap, -, hlayout⟩ := h.grow_eq hlimit
  rcases Nat.lt_or_ge ix.count ix.grownCapacity with hroom | hfull
  · -- Some slot is free, and one of the next cookies belongs there.
    have hlive : table.live.length < table.capacity := by
      rw [hcap, show table.live.length = ns.length from hlayout.length_live, ← h.count]
      exact hroom
    obtain ⟨k, hlt, hle, hfree⟩ := CookieTable.exists_isFree hlive ix.lastCookie
    rw [hcap] at hle
    exact ⟨hlimit, k, hlt, by omega, fun _ => (h.isFree_grown_iff hcap hlayout).1 hfree⟩
  · exact ⟨hlimit, ix.lastCookie + 1, Nat.lt_succ_self _, by omega,
      fun hroom => absurd hroom (Nat.not_lt.2 hfull)⟩

/-- A laid-out index that has a free slot, or may grow, gives out the least cookie after the last
one whose slot is free. -/
theorem Layout.allocate_free (h : ix.Layout ns) (hmeans : ix.HasMeans)
    (hroom : ix.count < ix.grownCapacity) :
    ∃ c table, ix.allocate = .ok (.ok c, { ix with table, lastCookie := c.val }) ∧
      table.capacity = ix.grownCapacity ∧
      ({ ix with table, lastCookie := c.val } : Index G V).Layout ns ∧ table.isFree c = true ∧
      FirstFree (ns.map (·.cookie)) ix.grownCapacity ix.lastCookie c := by
  obtain ⟨table, hgrow, hcap, -, hlayout⟩ := h.grow_eq hmeans.table
  have hcap' : ({ ix with table } : Index G V).capacity = ix.grownCapacity := hcap
  have hroom' : ix.count < table.capacity := by
    rw [hcap]
    exact hroom
  -- The slot of a cookie that is left comes round within reach.
  obtain ⟨k, hlast, hword, hfree⟩ := hmeans.cookie
  have hpos : 0 < table.capacity := by omega
  obtain ⟨k', hlt, hle, hslot⟩ :=
    table.exists_slotOf_eq (CookieTable.slotOf_lt hpos ⟨k⟩) ix.lastCookie
  have hfree' : table.isFree ⟨k⟩ = true := (h.isFree_grown_iff hcap hlayout).2 (hfree hroom)
  obtain ⟨m, hm, hmle, hmword, hmfree⟩ : ∃ m, ix.lastCookie < m ∧
      m ≤ ix.lastCookie + table.capacity ∧ m < wordLimit ∧ table.isFree ⟨m⟩ = true := by
    rcases Nat.le_total k (ix.lastCookie + table.capacity) with hreach | hbeyond
    · exact ⟨k, hlast, hreach, hword, hfree'⟩
    · refine ⟨k', hlt, hle, by omega, ?_⟩
      rw [CookieTable.isFree_iff, hslot]
      exact CookieTable.isFree_iff.1 hfree'
  rcases table.exists_nextFree_or table.capacity ix.lastCookie with ⟨c, hc⟩ | ⟨-, hbusy⟩
  swap
  · rw [hbusy m hm hmle hmword] at hmfree
    cases hmfree
  obtain ⟨hafter, hnear, hcword, hcfree, hleast⟩ := CookieTable.nextFree_eq_ok_iff.1 hc
  refine ⟨c, table, ?_, hcap, ?_, hcfree, hafter, hcword, ?_, ?_, fun j hj hjc => ?_⟩
  · rw [allocate_eq_of_grow hgrow hroom', show ({ ix with table } : Index G V).capacity =
      table.capacity from rfl, hc, ok_bind]
    rfl
  · have hissued : ∀ n ∈ ns, 1 ≤ n.cookie.val ∧ n.cookie.val ≤ c.val := fun n hn => by
      have := h.issued n hn
      omega
    exact { hlayout with issued := hissued }
  · rwa [← hcap]
  · rw [← hcap']
    exact hlayout.isFree_iff.1 hcfree
  · have hbusy := hleast j hj hjc
    by_contra hnone
    have hfree : table.isFree ⟨j⟩ = true := hlayout.isFree_iff.2 fun d hd hslot =>
      hnone ⟨d, hd, by rwa [hcap'] at hslot⟩
    rw [hfree] at hbusy
    cases hbusy

/-- A laid-out index that has not got the means for a new name stops at what it is short of. -/
theorem Layout.allocate_eq_error (h : ix.Layout ns) (hmeans : ¬ ix.HasMeans) :
    ix.allocate = .error ix.shortage := by
  rw [shortage]
  split_ifs with hlimit
  swap
  · rw [allocate, h.grow_eq_error (Nat.not_lt.1 hlimit), error_bind]
  obtain ⟨table, hgrow, hcap, -, hlayout⟩ := h.grow_eq hlimit
  rcases Nat.lt_or_ge ix.count ix.grownCapacity with hroom | hfull
  · have hroom' : ix.count < table.capacity := by
      rw [hcap]
      exact hroom
    rw [allocate_eq_of_grow hgrow hroom']
    -- A cookie that were found would be what the index is short of.
    rcases table.exists_nextFree_or table.capacity ix.lastCookie with ⟨c, hc⟩ | ⟨herror, -⟩
    · obtain ⟨hafter, -, hword, hfree, -⟩ := CookieTable.nextFree_eq_ok_iff.1 hc
      exact absurd ⟨hlimit, c.val, hafter, hword,
        fun _ => (h.isFree_grown_iff hcap hlayout).1 hfree⟩ hmeans
    · rw [show ({ ix with table } : Index G V).capacity = table.capacity from rfl, herror,
        error_bind]
  · have hspent : wordLimit ≤ ix.lastCookie + 1 := by
      by_contra hword
      exact hmeans ⟨hlimit, ix.lastCookie + 1, Nat.lt_succ_self _, Nat.not_le.1 hword,
        fun hroom => absurd hroom (Nat.not_lt.2 hfull)⟩
    have hfull' : ({ ix with table } : Index G V).capacity ≤ ix.count := by
      rw [show ({ ix with table } : Index G V).capacity = ix.grownCapacity from hcap]
      exact hfull
    rw [allocate, hgrow, ok_bind, if_pos hfull', Cookie.after_eq_error hspent, error_bind]

end Index

end NameIndex
