import NameIndex.CookieTable

/-!
# Readings of a cookie table

What each operation does to the entry of each slot, to the entry found under each cookie, and to the
collection of stored entries. Later modules use these statements and leave the array alone.
-/

namespace NameIndex.CookieTable

variable {V : Type}

@[simp] theorem capacity_empty {n : Nat} (h : n < entryLimit) :
    (empty n h : CookieTable V).capacity = n := by
  simp [empty, capacity]

/-- There is room for a table below the limit. -/
theorem withCapacity_eq {n : Nat} (h : n < entryLimit) :
    (withCapacity n : Except Fault (CookieTable V)) = .ok (empty n h) := by
  rw [withCapacity, dif_pos h]

/-- There is none for a larger one. -/
theorem withCapacity_eq_error {n : Nat} (h : entryLimit ≤ n) :
    (withCapacity n : Except Fault (CookieTable V)) = .error .noRoom := by
  rw [withCapacity, dif_neg (Nat.not_lt.2 h)]

/-- No table has more slots than that. -/
theorem capacity_lt (t : CookieTable V) : t.capacity < entryLimit := t.fits

@[simp] theorem capacity_setSlot (t : CookieTable V) (i : Nat) (e : Option (Entry V)) :
    (t.setSlot i e).capacity = t.capacity := by
  simp [setSlot, capacity]

@[simp] theorem slotOf_setSlot (t : CookieTable V) (i : Nat) (e : Option (Entry V)) (c : Cookie) :
    (t.setSlot i e).slotOf c = t.slotOf c := by
  simp [slotOf]

/-- Every cookie has a slot in a table that has any. -/
theorem slotOf_lt {t : CookieTable V} (h : 0 < t.capacity) (c : Cookie) :
    t.slotOf c < t.capacity :=
  Nat.mod_lt _ h

/-- Among a power of two of slots, that of a cookie is given by the low bits of the cookie. -/
theorem slotOf_eq_and {t : CookieTable V} (h : t.capacity.isPowerOfTwo) (c : Cookie) :
    t.slotOf c = c.val &&& (t.capacity - 1) := by
  obtain ⟨k, hk⟩ := h
  rw [slotOf, hk, Nat.and_two_pow_sub_one_eq_mod]

@[simp] theorem entryAt_empty {n : Nat} (h : n < entryLimit) (i : Nat) :
    (empty n h : CookieTable V).entryAt i = none := by
  simp only [entryAt, empty, Array.getElem?_replicate]
  split <;> rfl

/-- An occupied slot is a slot of the table. -/
theorem lt_capacity_of_entryAt {t : CookieTable V} {i : Nat} {e : Entry V}
    (h : t.entryAt i = some e) : i < t.capacity := by
  rw [entryAt, Option.join_eq_some_iff] at h
  exact (Array.getElem?_eq_some_iff.1 h).1

/-- Filling or freeing a slot changes the reading of that slot alone. -/
theorem entryAt_setSlot (t : CookieTable V) (i j : Nat) (e : Option (Entry V)) :
    (t.setSlot i e).entryAt j = if j = i ∧ i < t.capacity then e else t.entryAt j := by
  simp only [entryAt, setSlot, capacity, Array.getElem?_setIfInBounds]
  by_cases hij : i = j
  · subst hij
    by_cases hi : i < t.slots.size
    · simp [hi]
    · simp [hi]
  · simp [hij, Ne.symm hij]

@[simp] theorem capacity_modify (t : CookieTable V) (c : Cookie) (f : Entry V → Entry V) :
    (t.modify c f).capacity = t.capacity := by
  unfold modify
  split
  · rfl
  · exact capacity_setSlot t _ _

/-- A look-up answers exactly the entry that carries the cookie in the cookie's slot. -/
theorem get?_eq_some_iff {t : CookieTable V} {c : Cookie} {e : Entry V} :
    t.get? c = some e ↔ c ≠ .null ∧ t.entryAt (t.slotOf c) = some e ∧ e.cookie = c := by
  unfold get?
  by_cases hc : c = .null
  · simp [hc]
  · simp [hc, Option.filter_eq_some_iff]

@[simp] theorem get?_null (t : CookieTable V) : t.get? .null = none := by
  simp [get?]

/-- An entry is found under its own cookie only. -/
theorem cookie_eq_of_get? {t : CookieTable V} {c : Cookie} {e : Entry V}
    (h : t.get? c = some e) : e.cookie = c :=
  (get?_eq_some_iff.1 h).2.2

theorem isFree_iff {t : CookieTable V} {c : Cookie} :
    t.isFree c = true ↔ t.entryAt (t.slotOf c) = none := by
  simp [isFree]

/-- The stored entries are those in the slots. -/
theorem mem_live_iff {t : CookieTable V} {e : Entry V} :
    e ∈ t.live ↔ ∃ i, t.entryAt i = some e := by
  simp only [live, List.mem_filterMap, id_eq, exists_eq_right, entryAt, Option.join_eq_some_iff,
    Array.mem_toList_iff, Array.mem_iff_getElem?]

/-- A table is determined by what its slots hold. -/
theorem eq_of_entryAt {t t' : CookieTable V} (hcap : t.capacity = t'.capacity)
    (h : ∀ slot, t.entryAt slot = t'.entryAt slot) : t = t' := by
  have hslots : t.slots = t'.slots := by
    refine Array.ext hcap fun slot hlt hlt' => ?_
    have hslot := h slot
    rw [entryAt, entryAt, Array.getElem?_eq_getElem hlt, Array.getElem?_eq_getElem hlt'] at hslot
    exact hslot
  cases t
  cases t'
  cases hslots
  rfl

theorem modify_of_get? {t : CookieTable V} {c : Cookie} {e : Entry V} (h : t.get? c = some e)
    (f : Entry V → Entry V) : t.modify c f = t.setSlot (t.slotOf c) (some (f e)) := by
  rw [modify, h]

/-- A changed entry is found under its cookie. -/
theorem get?_modify_self (t : CookieTable V) (c : Cookie) {f : Entry V → Entry V}
    (hf : ∀ e, (f e).cookie = e.cookie) : (t.modify c f).get? c = (t.get? c).map f := by
  cases hget : t.get? c with
  | none =>
    rw [modify, hget]
    exact hget
  | some e =>
    obtain ⟨hnull, hat, hcookie⟩ := get?_eq_some_iff.1 hget
    rw [modify_of_get? hget, Option.map_some, get?_eq_some_iff, slotOf_setSlot, entryAt_setSlot,
      if_pos ⟨rfl, lt_capacity_of_entryAt hat⟩]
    exact ⟨hnull, rfl, (hf e).trans hcookie⟩

/-- When the entry of a cookie is changed, the other cookies lead to what they led to. -/
theorem get?_modify_of_ne (t : CookieTable V) {c d : Cookie} (hne : d ≠ c) {f : Entry V → Entry V}
    (hf : ∀ e, (f e).cookie = e.cookie) : (t.modify c f).get? d = t.get? d := by
  cases hget : t.get? c with
  | none => rw [modify, hget]
  | some e =>
    obtain ⟨-, hat, hcookie⟩ := get?_eq_some_iff.1 hget
    refine Option.ext fun e' => ?_
    rw [modify_of_get? hget, get?_eq_some_iff, get?_eq_some_iff, slotOf_setSlot, entryAt_setSlot]
    by_cases hslot : t.slotOf d = t.slotOf c
    · -- The slot holds the entry of the other cookie, changed or not.
      rw [if_pos ⟨hslot, lt_capacity_of_entryAt hat⟩, hslot, hat]
      constructor
      · rintro ⟨-, ⟨⟩, hd⟩
        exact absurd (hd.symm.trans ((hf e).trans hcookie)) hne
      · rintro ⟨-, ⟨⟩, hd⟩
        exact absurd (hd.symm.trans hcookie) hne
    · rw [if_neg fun h => hslot h.1]

/-- What a change of entries does not touch is found as before. -/
theorem map_get?_modify {α : Type} (t : CookieTable V) (c d : Cookie) {f : Entry V → Entry V}
    (hf : ∀ e, (f e).cookie = e.cookie) {g : Entry V → α} (hg : ∀ e, g (f e) = g e) :
    ((t.modify c f).get? d).map g = (t.get? d).map g := by
  by_cases hdc : d = c
  · rw [hdc, t.get?_modify_self c hf, Option.map_map]
    exact congrArg (fun g => (t.get? c).map g) (funext hg)
  · rw [t.get?_modify_of_ne hdc hf]

/-- The entry taken out is the one that is found, and it leaves its slot free. -/
theorem take?_eq_some_iff {t t' : CookieTable V} {c : Cookie} {e : Entry V} :
    t.take? c = some (e, t') ↔ t.get? c = some e ∧ t.setSlot (t.slotOf c) none = t' := by
  rw [take?, Option.map_eq_some_iff]
  constructor
  · rintro ⟨e, hget, ⟨⟩⟩
    exact ⟨hget, rfl⟩
  · rintro ⟨hget, rfl⟩
    exact ⟨e, hget, rfl⟩

/-- What is found when an entry has been taken out was found before. -/
theorem get?_of_take? {t t' : CookieTable V} {c d : Cookie} {e a : Entry V}
    (h : t.take? c = some (e, t')) (hd : t'.get? d = some a) : t.get? d = some a := by
  obtain ⟨-, rfl⟩ := take?_eq_some_iff.1 h
  obtain ⟨hnull, hat, hcookie⟩ := get?_eq_some_iff.1 hd
  rw [slotOf_setSlot, entryAt_setSlot] at hat
  split at hat
  · cases hat
  · exact get?_eq_some_iff.2 ⟨hnull, hat, hcookie⟩

/-- An entry that is found is stored. -/
theorem mem_live_of_get? {t : CookieTable V} {c : Cookie} {e : Entry V} (h : t.get? c = some e) :
    e ∈ t.live :=
  mem_live_iff.2 ⟨_, (get?_eq_some_iff.1 h).2.1⟩

end NameIndex.CookieTable
