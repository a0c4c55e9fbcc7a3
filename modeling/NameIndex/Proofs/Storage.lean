import Mathlib.Data.List.Perm.Subperm
import NameIndex.CookieTable.Lemmas
import NameIndex.Proofs.Outcome

/-!
# What a table stores

`Stores t es` says that the table `t` holds the entries of the list `es` and no others, each in the
slot of its own cookie. It fixes every reading of the table (`Stores.get?_eq_some_iff`), and each
operation on a slot is given by what it does to the list: filling a slot adds an entry, taking one
out filters it off, and modifying one maps over the list. Every table whose entries are in the slots
of their cookies (`Filed`) stores some list.

The second half counts. A table that stores distinct entries holds exactly as many as the list has
(`Stores.live_perm`); if it has a free slot, one of any `capacity` cookies in a row belongs there
(`exists_isFree`); and a list of distinct entries that are all found by their cookies is all that
the table stores if the table holds no more entries than that (`stores_of_length_le`).
-/

namespace NameIndex

variable {V : Type} {es : List (Entry V)}

/-- A change to the entry of a cookie changes nothing where no entry has the cookie. -/
theorem map_if_cookie_of_ne {c : Cookie} (h : ∀ e ∈ es, e.cookie ≠ c) {f : Entry V → Entry V} :
    (es.map fun e => if e.cookie = c then f e else e) = es := by
  conv_rhs => rw [← List.map_id es]
  exact List.map_congr_left fun e he => if_neg (h e he)

namespace CookieTable

variable {t : CookieTable V}

/-- The table holds exactly the entries of a list, each in the slot of its cookie. -/
def Stores (t : CookieTable V) (es : List (Entry V)) : Prop :=
  ∀ slot e, t.entryAt slot = some e ↔ e ∈ es ∧ t.slotOf e.cookie = slot

/-- Every entry is in the slot of its cookie. -/
def Filed (t : CookieTable V) : Prop :=
  ∀ slot e, t.entryAt slot = some e → t.slotOf e.cookie = slot

instance (t : CookieTable V) : Decidable t.Filed :=
  decidable_of_iff
    (∀ slot < t.capacity, (t.entryAt slot).all fun e => t.slotOf e.cookie = slot) <| by
    simp only [Option.all_eq_true, decide_eq_true_eq]
    exact ⟨fun h slot e hat => h slot (lt_capacity_of_entryAt hat) e hat,
      fun h slot _ e hat => h slot e hat⟩

/-- A new table stores nothing. -/
theorem stores_empty {n : Nat} (h : n < entryLimit) : (empty n h : CookieTable V).Stores [] := by
  intro slot e
  simp

/-- A table whose entries are in the slots of their cookies stores what it holds. -/
theorem Filed.stores (h : t.Filed) : t.Stores t.live := by
  intro slot e
  constructor
  · intro hat
    exact ⟨mem_live_iff.2 ⟨slot, hat⟩, h slot e hat⟩
  · rintro ⟨he, rfl⟩
    obtain ⟨slot, hat⟩ := mem_live_iff.1 he
    rwa [h slot e hat]

namespace Stores

/-- Only the members of the list count. -/
theorem congr {es' : List (Entry V)} (h : t.Stores es) (hes : ∀ e, e ∈ es ↔ e ∈ es') :
    t.Stores es' := by
  intro slot e
  rw [h slot e, hes e]

/-- The table holds every entry in the slot of its cookie. -/
theorem filed (h : t.Stores es) : t.Filed :=
  fun slot e hat => ((h slot e).1 hat).2

/-- An entry of the list is in the slot of its cookie. -/
theorem entryAt_slotOf (h : t.Stores es) {e : Entry V} (he : e ∈ es) :
    t.entryAt (t.slotOf e.cookie) = some e :=
  (h _ e).2 ⟨he, rfl⟩

/-- Stored entries whose cookies share a slot are the same. -/
theorem eq_of_slotOf_eq (h : t.Stores es) {e e' : Entry V} (he : e ∈ es) (he' : e' ∈ es)
    (hs : t.slotOf e.cookie = t.slotOf e'.cookie) : e = e' := by
  have h1 := h.entryAt_slotOf he
  have h2 := h.entryAt_slotOf he'
  rw [hs, h2] at h1
  exact (Option.some.inj h1).symm

/-- Stored entries of one cookie are the same. -/
theorem eq_of_cookie_eq (h : t.Stores es) {e e' : Entry V} (he : e ∈ es) (he' : e' ∈ es)
    (hc : e.cookie = e'.cookie) : e = e' :=
  h.eq_of_slotOf_eq he he' (by rw [hc])

/-- Tables of one size that store the same entries are the same. -/
theorem eq_of_capacity {t' : CookieTable V} (h : t.Stores es) (h' : t'.Stores es)
    (hcap : t.capacity = t'.capacity) : t = t' := by
  refine eq_of_entryAt hcap fun slot => Option.ext fun e => ?_
  have hslot : t.slotOf e.cookie = t'.slotOf e.cookie := by
    rw [slotOf, slotOf, hcap]
  rw [h slot e, h' slot e, hslot]

/-- A look-up finds the entries of the list under their cookies. -/
theorem get?_eq_some_iff (h : t.Stores es) {c : Cookie} {e : Entry V} :
    t.get? c = some e ↔ c ≠ .null ∧ e ∈ es ∧ e.cookie = c := by
  rw [CookieTable.get?_eq_some_iff, h]
  constructor
  · rintro ⟨hc, ⟨he, -⟩, rfl⟩
    exact ⟨hc, he, rfl⟩
  · rintro ⟨hc, he, rfl⟩
    exact ⟨hc, ⟨he, rfl⟩, rfl⟩

/-- A look-up of an entry's own cookie finds the entry. -/
theorem get?_cookie (h : t.Stores es) {e : Entry V} (he : e ∈ es) (hc : e.cookie ≠ .null) :
    t.get? e.cookie = some e :=
  h.get?_eq_some_iff.2 ⟨hc, he, rfl⟩

/-- The entries held are those of the list. -/
theorem mem_live_iff (h : t.Stores es) {e : Entry V} : e ∈ t.live ↔ e ∈ es := by
  rw [CookieTable.mem_live_iff]
  exact ⟨fun ⟨slot, he⟩ => ((h slot e).1 he).1, fun he => ⟨_, h.entryAt_slotOf he⟩⟩

/-- The slot of a cookie is free when no entry of the list belongs there. -/
theorem isFree_iff (h : t.Stores es) {c : Cookie} :
    t.isFree c = true ↔ ∀ e ∈ es, t.slotOf e.cookie ≠ t.slotOf c := by
  rw [CookieTable.isFree_iff, Option.eq_none_iff_forall_ne_some]
  constructor
  · intro hfree e he hs
    exact hfree e ((h _ e).2 ⟨he, hs⟩)
  · intro hfree e he
    exact hfree e ((h _ e).1 he).1 ((h _ e).1 he).2

/-- Filling a free slot adds its entry. -/
theorem place (h : t.Stores es) {e : Entry V} (hfree : t.isFree e.cookie = true)
    (hcap : 0 < t.capacity) : (t.setSlot (t.slotOf e.cookie) (some e)).Stores (e :: es) := by
  have hlt := slotOf_lt hcap e.cookie
  rw [h.isFree_iff] at hfree
  intro slot e'
  rw [entryAt_setSlot, slotOf_setSlot]
  by_cases hs : slot = t.slotOf e.cookie
  · -- The slot held nothing before, so no entry of the list is lost with it.
    rw [if_pos ⟨hs, hlt⟩, Option.some.injEq, List.mem_cons, hs]
    constructor
    · rintro rfl
      exact ⟨.inl rfl, rfl⟩
    · rintro ⟨rfl | he', hs'⟩
      · rfl
      · exact absurd hs' (hfree e' he')
  · rw [if_neg fun hc => hs hc.1, h, List.mem_cons]
    constructor
    · rintro ⟨he', hs'⟩
      exact ⟨.inr he', hs'⟩
    · rintro ⟨rfl | he', hs'⟩
      · exact absurd hs'.symm hs
      · exact ⟨he', hs'⟩

/-- Taking an entry out leaves the entries of other cookies. -/
theorem take (h : t.Stores es) {e : Entry V} (he : e ∈ es) :
    (t.setSlot (t.slotOf e.cookie) none).Stores (es.filter fun e' => e'.cookie ≠ e.cookie) := by
  have hlt := lt_capacity_of_entryAt (h.entryAt_slotOf he)
  intro slot e'
  rw [entryAt_setSlot, slotOf_setSlot, List.mem_filter, decide_eq_true_eq]
  by_cases hs : slot = t.slotOf e.cookie
  · -- The entry taken out was the only one of its slot.
    rw [if_pos ⟨hs, hlt⟩, hs]
    constructor
    · intro hn
      cases hn
    · rintro ⟨⟨he', hne⟩, hs'⟩
      exact absurd (congrArg Entry.cookie (h.eq_of_slotOf_eq he' he hs')) hne
  · rw [if_neg fun hc => hs hc.1, h]
    constructor
    · rintro ⟨he', hs'⟩
      refine ⟨⟨he', fun hc => hs ?_⟩, hs'⟩
      rw [← hs', hc]
    · rintro ⟨⟨he', -⟩, hs'⟩
      exact ⟨he', hs'⟩

/-- Taking out the entry of a stored cookie. -/
theorem take?_eq (h : t.Stores es) {e : Entry V} (he : e ∈ es) (hc : e.cookie ≠ .null) :
    t.take? e.cookie = some (e, t.setSlot (t.slotOf e.cookie) none) := by
  rw [take?, h.get?_cookie he hc, Option.map_some]

/-- Modifying the entry of a cookie modifies it in the list. -/
theorem modify (h : t.Stores es) {c : Cookie} (hc : c ≠ .null) {f : Entry V → Entry V}
    (hf : ∀ e, (f e).cookie = e.cookie) :
    (t.modify c f).Stores (es.map fun e => if e.cookie = c then f e else e) := by
  unfold CookieTable.modify
  cases hget : t.get? c with
  | none =>
    -- Without an entry of the cookie neither the table nor the list changes.
    have hne : ∀ e ∈ es, ¬ e.cookie = c := by
      intro e he hec
      rw [h.get?_eq_some_iff.2 ⟨hc, he, hec⟩] at hget
      cases hget
    rw [map_if_cookie_of_ne hne]
    exact h
  | some e =>
    -- The new entry keeps its cookie, and with it the slot.
    obtain ⟨-, he, rfl⟩ := h.get?_eq_some_iff.1 hget
    have hlt := lt_capacity_of_entryAt (h.entryAt_slotOf he)
    intro slot e'
    rw [entryAt_setSlot, slotOf_setSlot, List.mem_map]
    by_cases hs : slot = t.slotOf e.cookie
    · rw [if_pos ⟨hs, hlt⟩, Option.some.injEq, hs]
      constructor
      · rintro rfl
        exact ⟨⟨e, he, if_pos rfl⟩, by rw [hf]⟩
      · rintro ⟨⟨e₁, he₁, rfl⟩, hs'⟩
        have hcookie : (if e₁.cookie = e.cookie then f e₁ else e₁).cookie = e₁.cookie := by
          split_ifs
          · exact hf e₁
          · rfl
        rw [hcookie] at hs'
        rw [h.eq_of_slotOf_eq he₁ he hs', if_pos rfl]
    · rw [if_neg fun hc => hs hc.1, h]
      constructor
      · rintro ⟨he', hs'⟩
        have hne : ¬ e'.cookie = e.cookie := fun hcc => hs (by rw [← hs', hcc])
        exact ⟨⟨e', he', if_neg hne⟩, hs'⟩
      · rintro ⟨⟨e₁, he₁, rfl⟩, hs'⟩
        by_cases hcc : e₁.cookie = e.cookie
        · rw [if_pos hcc, hf, hcc] at hs'
          exact absurd hs'.symm hs
        · rw [if_neg hcc] at hs' ⊢
          exact ⟨he₁, hs'⟩

end Stores

/-! ## Counting the slots -/

theorem entryAt_eq_some_iff {slot : Nat} {e : Entry V} :
    t.entryAt slot = some e ↔ t.slots.toList[slot]? = some (some e) := by
  rw [CookieTable.entryAt, Option.join_eq_some_iff, Array.getElem?_toList]

/-- A relation holds along the entries held when it does of the entries of any two slots in
order. -/
theorem pairwise_live_iff {r : Entry V → Entry V → Prop} :
    t.live.Pairwise r ↔
      ∀ i j, i < j → ∀ a b, t.entryAt i = some a → t.entryAt j = some b → r a b := by
  rw [live, List.pairwise_filterMap, List.pairwise_iff_getElem]
  constructor
  · intro h i j hij a b hi hj
    rw [entryAt_eq_some_iff, List.getElem?_eq_some_iff] at hi hj
    obtain ⟨hi, hia⟩ := hi
    obtain ⟨hj, hjb⟩ := hj
    exact h i j hi hj hij a hia b hjb
  · intro h i j hi hj hij a ha b hb
    have hia := entryAt_eq_some_iff.2 (List.getElem?_eq_some_iff.2 ⟨hi, ha⟩)
    have hjb := entryAt_eq_some_iff.2 (List.getElem?_eq_some_iff.2 ⟨hj, hb⟩)
    exact h i j hij a b hia hjb

/-- The entries held are distinct when no entry is in two slots. -/
theorem live_nodup_iff :
    t.live.Nodup ↔ ∀ i j e, t.entryAt i = some e → t.entryAt j = some e → i = j := by
  rw [List.Nodup, pairwise_live_iff]
  constructor
  · intro h i j e hi hj
    rcases Nat.lt_trichotomy i j with hij | hij | hij
    · exact absurd rfl (h i j hij e e hi hj)
    · exact hij
    · exact absurd rfl (h j i hij e e hj hi)
  · rintro h i j hij a _ hi hj rfl
    exact absurd (h i j a hi hj) (Nat.ne_of_lt hij)

/-- No more entries are held than there are slots. -/
theorem length_live_le (t : CookieTable V) : t.live.length ≤ t.capacity := by
  rw [capacity, ← Array.length_toList]
  exact List.length_filterMap_le _ _

/-- As many entries are held as there are slots exactly when every slot is occupied. -/
theorem length_live_eq_iff :
    t.live.length = t.capacity ↔ ∀ slot < t.capacity, ∃ e, t.entryAt slot = some e := by
  have hsize : t.slots.toList.length = t.capacity := Array.length_toList
  rw [live, ← hsize, List.filterMap_length_eq_length, List.forall_mem_iff_forall_getElem]
  refine forall₂_congr fun slot hslot => ?_
  rw [id_eq, Option.isSome_iff_exists]
  refine exists_congr fun e => ?_
  rw [entryAt_eq_some_iff, List.getElem?_eq_getElem hslot, Option.some.injEq]

/-- A table that holds fewer entries than it has slots has a free slot. -/
theorem exists_entryAt_eq_none (h : t.live.length < t.capacity) :
    ∃ slot, slot < t.capacity ∧ t.entryAt slot = none := by
  by_contra hall
  have hoccupied : ∀ slot < t.capacity, ∃ e, t.entryAt slot = some e := fun slot hslot =>
    Option.ne_none_iff_exists'.1 fun hnone => hall ⟨slot, hslot, hnone⟩
  exact Nat.ne_of_lt h (length_live_eq_iff.2 hoccupied)

/-- Any number of cookies in a row as large as the number of slots meets every slot. -/
theorem exists_slotOf_eq (t : CookieTable V) {slot : Nat} (h : slot < t.capacity) (last : Nat) :
    ∃ k, last < k ∧ k ≤ last + t.capacity ∧ t.slotOf ⟨k⟩ = slot := by
  generalize hn : t.capacity = n at h
  have hr : (last + 1) % n < n := Nat.mod_lt _ (by omega)
  generalize hgap : slot + n - (last + 1) % n = gap
  refine ⟨last + 1 + gap % n, by omega, ?_, ?_⟩
  · have := Nat.mod_lt gap (show 0 < n by omega)
    omega
  · -- The gap closes the distance to the slot, once round the table if need be.
    have hsum : (last + 1) % n + gap = slot + n := by omega
    change (last + 1 + gap % n) % t.capacity = slot
    rw [hn, Nat.add_mod_mod, ← Nat.mod_add_mod, hsum, Nat.add_mod_right, Nat.mod_eq_of_lt h]

/-- Of any number of cookies in a row as large as the number of slots, one belongs in a free slot,
if there is a free slot. -/
theorem exists_isFree (h : t.live.length < t.capacity) (last : Nat) :
    ∃ k, last < k ∧ k ≤ last + t.capacity ∧ t.isFree ⟨k⟩ = true := by
  obtain ⟨slot, hslot, hnone⟩ := exists_entryAt_eq_none h
  obtain ⟨k, hlt, hle, hk⟩ := t.exists_slotOf_eq hslot last
  refine ⟨k, hlt, hle, ?_⟩
  rw [CookieTable.isFree_iff, hk]
  exact hnone

/-- An entry that has its slot by its cookie is held once. -/
theorem Stores.live_nodup (h : t.Stores es) : t.live.Nodup := by
  rw [live_nodup_iff]
  intro i j e hi hj
  rw [← h.filed i e hi, ← h.filed j e hj]

/-- A table that stores distinct entries holds them in some order. -/
theorem Stores.live_perm (h : t.Stores es) (hes : es.Nodup) : t.live.Perm es := by
  rw [List.perm_ext_iff_of_nodup h.live_nodup hes]
  exact fun e => h.mem_live_iff

/-- Distinct entries, each found by its cookie, are all that a table stores if it holds no more. -/
theorem stores_of_length_le (hfound : ∀ e ∈ es, t.get? e.cookie = some e) (hes : es.Nodup)
    (hlen : t.live.length ≤ es.length) : t.Stores es := by
  -- The list lies within what the table holds and is not shorter, so both are the same up to order.
  have hsub : es ⊆ t.live := fun e he => mem_live_of_get? (hfound e he)
  have hperm : es.Perm t.live := (List.subperm_of_subset hes hsub).perm_of_length_le hlen
  have hlive : t.live.Nodup := hperm.nodup_iff.1 hes
  -- Each of them is found in the slot of its cookie, and is in no other slot.
  have hfiled : t.Filed := by
    intro slot e hat
    have he : e ∈ es := hperm.mem_iff.2 (CookieTable.mem_live_iff.2 ⟨slot, hat⟩)
    have hslot := (CookieTable.get?_eq_some_iff.1 (hfound e he)).2.1
    exact live_nodup_iff.1 hlive _ _ e hslot hat
  exact hfiled.stores.congr fun e => hperm.mem_iff.symm

end CookieTable

end NameIndex
