import Mathlib.Data.Nat.Find
import Mathlib.Data.Nat.ModEq
import NameIndex.Proofs.Storage

/-!
# Rehashing

A table is rehashed by filling a new one with its entries in slot order, if there is room for it,
and this stops at the first entry whose slot is taken already. Two entries come to share a slot of
the new table if their cookies are congruent modulo its size, wherever they were before (`Clash`).
So a table is rehashed to any size that a table can have unless it holds two such entries, and the
one named is the first in slot order to clash with one before it (`FirstClash`). Nothing else is
lost, altered or put elsewhere (`Rehashed`).

Of two powers of two the larger is a multiple of the smaller, so cookies that do not share a slot of
a table do not share one of a larger table. A table whose entries are all in the slots of their own
cookies (`Filed`) can therefore always grow (`Stores.rehash`).
-/

namespace NameIndex

variable {V : Type}

/-- Of two powers of two the larger is a multiple of the smaller. -/
theorem dvd_of_isPowerOfTwo {a b : Nat} (ha : a.isPowerOfTwo) (hb : b.isPowerOfTwo) (hle : a ≤ b) :
    a ∣ b := by
  obtain ⟨i, rfl⟩ := ha
  obtain ⟨j, rfl⟩ := hb
  exact Nat.pow_dvd_pow 2 ((Nat.pow_le_pow_iff_right (by decide)).1 hle)

/-- The cookies of two entries are congruent modulo a number of slots. -/
def Entry.Congruent (n : Nat) (a b : Entry V) : Prop := a.cookie.val ≡ b.cookie.val [MOD n]

namespace CookieTable

variable {t t' : CookieTable V} {es : List (Entry V)} {e : Entry V} {n i j : Nat}

/-- The entries of two slots have cookies that are congruent modulo a number of slots. -/
def Clash (t : CookieTable V) (n i j : Nat) : Prop :=
  ∃ a b, t.entryAt i = some a ∧ t.entryAt j = some b ∧ a.Congruent n b

instance (t : CookieTable V) (n i j : Nat) : Decidable (t.Clash n i j) :=
  decidable_of_iff
    ((t.entryAt i).any fun a =>
      (t.entryAt j).any fun b => a.cookie.val % n = b.cookie.val % n) <| by
    simp [Clash, Entry.Congruent, Nat.ModEq, Option.any_eq_true]

/-- The entry `e` of slot `j` is the first in slot order to clash with an entry before it. -/
structure FirstClash (t : CookieTable V) (n j : Nat) (e : Entry V) : Prop where
  /-- The slot holds the entry. -/
  entry : t.entryAt j = some e
  /-- It clashes with the entry of an earlier slot. -/
  clash : ∃ i < j, t.Clash n i j
  /-- The entries of earlier slots do not clash. -/
  first : ∀ k < j, ∀ i < k, ¬ t.Clash n i k

/-- The table `t'` of `n` slots holds what `t` does. -/
structure Rehashed (t : CookieTable V) (n : Nat) (t' : CookieTable V) : Prop where
  /-- The number of slots is the one asked for. -/
  capacity : t'.capacity = n
  /-- The entries are the same. -/
  entries : t'.live.Perm t.live
  /-- Each of them is in the slot of its cookie. -/
  filed : t'.Filed

/-- Entries share a slot of a table exactly when they are congruent modulo its size. -/
theorem slotOf_eq_iff (hcap : t.capacity = n) {a b : Entry V} :
    t.slotOf a.cookie = t.slotOf b.cookie ↔ a.Congruent n b := by
  rw [slotOf, slotOf, hcap]
  exact Iff.rfl

/-! ## Filling a new table -/

/-- An entry that is congruent to none of those stored is stored with them. -/
theorem Stores.refill_apart (h : t.Stores es) (hcap : t.capacity = n) (hn : 0 < n)
    (hapart : ∀ a ∈ es, ¬ a.Congruent n e) :
    ∃ t', refill n t e = .ok t' ∧ t'.capacity = n ∧ t'.Stores (es ++ [e]) := by
  have hfree : t.isFree e.cookie = true :=
    h.isFree_iff.2 fun a ha hslot => hapart a ha ((slotOf_eq_iff hcap).1 hslot)
  have hstores := h.place hfree (hcap ▸ hn)
  refine ⟨t.setSlot (t.slotOf e.cookie) (some e), ?_, by rw [capacity_setSlot, hcap],
    hstores.congr fun e' => ?_⟩
  · rw [refill, place?, if_pos hfree]
  · rw [List.mem_cons, List.mem_append, List.mem_singleton, or_comm]

/-- An entry that is congruent to one of those stored stops the filling. -/
theorem Stores.refill_congruent (h : t.Stores es) (hcap : t.capacity = n) {a : Entry V}
    (ha : a ∈ es) (hmod : a.Congruent n e) :
    refill n t e = .error (.corrupt (.rehashCollision e.cookie n)) := by
  have htaken : ¬ t.isFree e.cookie = true := fun hfree =>
    h.isFree_iff.1 hfree a ha ((slotOf_eq_iff hcap).2 hmod)
  rw [refill, place?, if_neg htaken]

/-- Entries that are not congruent to one another are stored one after another. -/
theorem Stores.foldlM_refill {new : List (Entry V)} (h : t.Stores es) (hcap : t.capacity = n)
    (hn : 0 < n) (hapart : (es ++ new).Pairwise fun a b => ¬ a.Congruent n b) :
    ∃ t', new.foldlM (refill n) t = .ok t' ∧ t'.capacity = n ∧ t'.Stores (es ++ new) := by
  -- By induction on the entries still to be stored, each of which joins those that are.
  induction new generalizing t es with
  | nil => exact ⟨t, rfl, hcap, by rwa [List.append_nil]⟩
  | cons a new ih =>
    obtain ⟨-, -, hnew⟩ := List.pairwise_append.1 hapart
    obtain ⟨t₁, hrefill, hcap₁, hstores₁⟩ :=
      h.refill_apart hcap hn fun b hb => hnew b hb a List.mem_cons_self
    rw [List.append_cons] at hapart ⊢
    obtain ⟨t', hfold, hcap', hstores'⟩ := ih hstores₁ hcap₁ hapart
    refine ⟨t', ?_, hcap', hstores'⟩
    rw [List.foldlM_cons, hrefill, ok_bind, hfold]

/-- A new table is filled with entries that are not congruent to one another. -/
theorem exists_fill {new : List (Entry V)} (hn : 0 < n) (hfits : n < entryLimit)
    (hapart : new.Pairwise fun a b => ¬ a.Congruent n b) :
    ∃ t', new.foldlM (refill n) (empty n hfits) = .ok t' ∧ t'.capacity = n ∧ t'.Stores new := by
  have hempty : (empty n hfits : CookieTable V).Stores [] := stores_empty hfits
  simpa using hempty.foldlM_refill (capacity_empty hfits) hn hapart

/-- Where there is room for the new table, rehashing fills it. -/
theorem rehash_eq (t : CookieTable V) (hfits : n < entryLimit) :
    t.rehash n = t.live.foldlM (refill n) (empty n hfits) := by
  rw [rehash, withCapacity_eq hfits, ok_bind]

/-- Where there is none, no entry is looked at. -/
theorem rehash_eq_noRoom (t : CookieTable V) (h : entryLimit ≤ n) :
    t.rehash n = .error .noRoom := by
  rw [rehash, withCapacity_eq_error h, error_bind]

/-! ## The first slots of a table -/

/-- The table without the slots from `j` on. -/
def upTo (t : CookieTable V) (j : Nat) : CookieTable V where
  slots := t.slots.take j
  fits := by
    have hfits := t.fits
    rw [Array.take_eq_extract, Array.size_extract]
    omega

theorem toList_slots_upTo (t : CookieTable V) (j : Nat) :
    (t.upTo j).slots.toList = t.slots.toList.take j := by
  simp [upTo]

theorem entryAt_upTo (t : CookieTable V) (i j : Nat) :
    (t.upTo j).entryAt i = if i < j then t.entryAt i else none := by
  refine Option.ext fun e => ?_
  rw [entryAt_eq_some_iff, toList_slots_upTo, List.getElem?_take]
  split_ifs
  · exact entryAt_eq_some_iff.symm
  · simp

/-- The entries held are those of the slots before a slot, the entry of that slot, and others. -/
theorem live_eq_of_entryAt (h : t.entryAt j = some e) :
    ∃ after, t.live = (t.upTo j).live ++ e :: after := by
  obtain ⟨hj, hje⟩ := List.getElem?_eq_some_iff.1 (entryAt_eq_some_iff.1 h)
  have hslots :
      t.slots.toList = t.slots.toList.take j ++ some e :: t.slots.toList.drop (j + 1) := by
    rw [← hje, ← List.drop_eq_getElem_cons hj, List.take_append_drop]
  refine ⟨(t.slots.toList.drop (j + 1)).filterMap id, ?_⟩
  calc t.live = (t.slots.toList.take j ++ some e :: t.slots.toList.drop (j + 1)).filterMap id := by
        rw [← hslots, live]
    _ = (t.slots.toList.take j).filterMap id ++
          e :: (t.slots.toList.drop (j + 1)).filterMap id := by
        rw [List.filterMap_append]
        rfl
    _ = (t.upTo j).live ++ e :: (t.slots.toList.drop (j + 1)).filterMap id := by
        rw [live, toList_slots_upTo]

/-! ## Clashes -/

theorem Clash.symm (h : t.Clash n i j) : t.Clash n j i := by
  obtain ⟨a, b, hi, hj, hmod⟩ := h
  exact ⟨b, a, hj, hi, Nat.ModEq.symm hmod⟩

theorem Clash.lt_capacity (h : t.Clash n i j) : i < t.capacity ∧ j < t.capacity := by
  obtain ⟨a, b, hi, hj, -⟩ := h
  exact ⟨lt_capacity_of_entryAt hi, lt_capacity_of_entryAt hj⟩

/-- Of two slots that clash one is the later. -/
theorem exists_clash_iff :
    (∃ i j, i ≠ j ∧ t.Clash n i j) ↔ ∃ j, ∃ i < j, t.Clash n i j := by
  constructor
  · rintro ⟨i, j, hne, h⟩
    rcases Nat.lt_or_gt_of_ne hne with hij | hji
    · exact ⟨j, i, hij, h⟩
    · exact ⟨i, j, hji, h.symm⟩
  · rintro ⟨j, i, hij, h⟩
    exact ⟨i, j, Nat.ne_of_lt hij, h⟩

/-- If there is a clash, there is a first one. -/
theorem exists_firstClash_iff :
    (∃ j e, t.FirstClash n j e) ↔ ∃ j, ∃ i < j, t.Clash n i j := by
  constructor
  · rintro ⟨j, e, h⟩
    exact ⟨j, h.clash⟩
  · intro h
    classical
    obtain ⟨i, hi, a, e, hia, hje, hmod⟩ := Nat.find_spec h
    refine ⟨Nat.find h, e, hje, ⟨i, hi, a, e, hia, hje, hmod⟩, fun k hk i hi hclash => ?_⟩
    exact Nat.find_min h hk ⟨i, hi, hclash⟩

/-- Without a clash no two of the entries held are congruent. -/
theorem pairwise_live_of_forall_not_clash (h : ∀ k, ∀ i < k, ¬ t.Clash n i k) :
    t.live.Pairwise fun a b => ¬ a.Congruent n b :=
  pairwise_live_iff.2 fun i k hik a b hi hk hmod => h k i hik ⟨a, b, hi, hk, hmod⟩

/-- Rehashing stops at the entry that clashes first. -/
theorem FirstClash.rehash_eq (h : t.FirstClash n j e) (hn : 0 < n) (hfits : n < entryLimit) :
    t.rehash n = .error (.corrupt (.rehashCollision e.cookie n)) := by
  obtain ⟨after, hlive⟩ := live_eq_of_entryAt h.entry
  -- The entries of the slots before it are stored,
  have hbefore : ∀ k, ∀ i < k, ¬ (t.upTo j).Clash n i k := by
    rintro k i hik ⟨a, b, hi, hk, hmod⟩
    rw [entryAt_upTo] at hi hk
    split_ifs at hi hk with hij hkj
    exact h.first k hkj i hik ⟨a, b, hi, hk, hmod⟩
  obtain ⟨t', hfold, hcap, hstores⟩ :=
    exists_fill hn hfits (pairwise_live_of_forall_not_clash hbefore)
  -- and one of them has its slot.
  obtain ⟨i, hij, a, b, hi, hj, hmod⟩ := h.clash
  obtain rfl : e = b := Option.some.inj (h.entry.symm.trans hj)
  have ha : a ∈ (t.upTo j).live := mem_live_iff.2 ⟨i, by rw [entryAt_upTo, if_pos hij, hi]⟩
  rw [t.rehash_eq hfits, hlive, List.foldlM_append, hfold, ok_bind, List.foldlM_cons,
    hstores.refill_congruent hcap ha hmod, error_bind]

/-- A table in which no two slots clash is rehashed. -/
theorem exists_rehashed (hn : 0 < n) (hfits : n < entryLimit)
    (h : ∀ k, ∀ i < k, ¬ t.Clash n i k) : ∃ t', t.rehash n = .ok t' ∧ t.Rehashed n t' := by
  have hapart := pairwise_live_of_forall_not_clash h
  obtain ⟨t', hfold, hcap, hstores⟩ := exists_fill hn hfits hapart
  have hnodup : t.live.Nodup := by
    refine hapart.imp fun {a b} hmod hab => hmod ?_
    rw [hab]
    exact Nat.ModEq.rfl
  rw [t.rehash_eq hfits]
  exact ⟨t', hfold, hcap, hstores.live_perm hnodup, hstores.filed⟩

/-- Where there is room, rehashing stops at the entry that clashes first, and for no other
reason. -/
theorem rehash_eq_error_iff (hn : 0 < n) (hfits : n < entryLimit) {f : Fault} :
    t.rehash n = .error f ↔
      ∃ j e, t.FirstClash n j e ∧ f = .corrupt (.rehashCollision e.cookie n) := by
  constructor
  · intro herror
    by_cases h : ∃ j, ∃ i < j, t.Clash n i j
    · obtain ⟨j, e, hfirst⟩ := exists_firstClash_iff.2 h
      rw [hfirst.rehash_eq hn hfits] at herror
      exact ⟨j, e, hfirst, (Except.error.inj herror).symm⟩
    · obtain ⟨t', hok, -⟩ := exists_rehashed hn hfits fun k i hik hclash => h ⟨k, i, hik, hclash⟩
      rw [hok] at herror
      cases herror
  · rintro ⟨j, e, hfirst, rfl⟩
    exact hfirst.rehash_eq hn hfits

/-- Where there is room, rehashing stops exactly when two slots clash. -/
theorem exists_rehash_eq_error_iff (hn : 0 < n) (hfits : n < entryLimit) :
    (∃ f, t.rehash n = .error f) ↔ ∃ i j, i ≠ j ∧ t.Clash n i j := by
  rw [exists_clash_iff, ← exists_firstClash_iff]
  constructor
  · rintro ⟨f, herror⟩
    obtain ⟨j, e, hfirst, -⟩ := (rehash_eq_error_iff hn hfits).1 herror
    exact ⟨j, e, hfirst⟩
  · rintro ⟨j, e, hfirst⟩
    exact ⟨_, hfirst.rehash_eq hn hfits⟩

/-! ## Growing -/

/-- Entries that are in their slots do not clash in a table whose size is a multiple. -/
theorem Filed.not_clash (h : t.Filed) (hdvd : t.capacity ∣ n) (hne : i ≠ j) : ¬ t.Clash n i j := by
  rintro ⟨a, b, hi, hj, hmod⟩
  have hslot : t.slotOf a.cookie = t.slotOf b.cookie := (slotOf_eq_iff rfl).2 (hmod.of_dvd hdvd)
  rw [h i a hi, h j b hj] at hslot
  exact hne hslot

/-- A table whose entries are in their slots is rehashed to any multiple of its size that there is
room for. -/
theorem Filed.exists_rehashed (h : t.Filed) (hn : 0 < n) (hfits : n < entryLimit)
    (hdvd : t.capacity ∣ n) : ∃ t', t.rehash n = .ok t' ∧ t.Rehashed n t' :=
  CookieTable.exists_rehashed hn hfits fun _ _ hik => h.not_clash hdvd (Nat.ne_of_lt hik)

/-- What a rehashed table stores. -/
theorem Rehashed.stores (h : t.Rehashed n t') : t'.Stores t.live :=
  h.filed.stores.congr fun _ => h.entries.mem_iff

/-- Every cookie finds in the rehashed table what it found before. -/
theorem Rehashed.get?_eq (h : t.Rehashed n t') (hfiled : t.Filed) (c : Cookie) :
    t'.get? c = t.get? c := by
  refine Option.ext fun e => ?_
  rw [h.stores.get?_eq_some_iff, hfiled.stores.get?_eq_some_iff]

/-- A table is rehashed to any multiple of its size that there is room for, and stores the same
entries. -/
theorem Stores.rehash (h : t.Stores es) (hn : 0 < n) (hfits : n < entryLimit)
    (hdvd : t.capacity ∣ n) : ∃ t', t.rehash n = .ok t' ∧ t'.capacity = n ∧ t'.Stores es := by
  obtain ⟨t', hok, hrehashed⟩ := h.filed.exists_rehashed hn hfits hdvd
  exact ⟨t', hok, hrehashed.capacity, hrehashed.stores.congr fun e => h.mem_live_iff⟩

/-- A table of any entries in any slots is not rehashed to a size that no table has room for. To any
other size it is, unless two of its slots hold entries whose cookies are congruent modulo the new
size, and then it stops at the first of them to clash. Otherwise it keeps all of its entries, each
in the slot of its cookie. A table of entries that are in their slots is always rehashed if it does
not get smaller, and each cookie finds the same. -/
theorem rehash_exact (t : CookieTable V) {n : Nat} (hn : n.isPowerOfTwo) :
    (entryLimit ≤ n → t.rehash n = .error .noRoom) ∧
      (n < entryLimit →
        ((∃ f, t.rehash n = .error f) ↔ ∃ i j, i ≠ j ∧ t.Clash n i j) ∧
        (∀ f, t.rehash n = .error f ↔
          ∃ j e, t.FirstClash n j e ∧ f = .corrupt (.rehashCollision e.cookie n)) ∧
        ((∀ i j, i ≠ j → ¬ t.Clash n i j) → ∃ t', t.rehash n = .ok t' ∧ t.Rehashed n t') ∧
        (t.capacity.isPowerOfTwo → t.capacity ≤ n → t.Filed →
          ∃ t', t.rehash n = .ok t' ∧ t.Rehashed n t' ∧ ∀ c, t'.get? c = t.get? c)) := by
  have hpos : 0 < n := Nat.pos_of_isPowerOfTwo hn
  refine ⟨t.rehash_eq_noRoom, fun hfits => ⟨exists_rehash_eq_error_iff hpos hfits,
    fun f => rehash_eq_error_iff hpos hfits, fun hapart => ?_, fun hcap hle hfiled => ?_⟩⟩
  · exact exists_rehashed hpos hfits fun k i hik => hapart i k (Nat.ne_of_lt hik)
  · obtain ⟨t', hok, hrehashed⟩ :=
      hfiled.exists_rehashed hpos hfits (dvd_of_isPowerOfTwo hcap hn hle)
    exact ⟨t', hok, hrehashed, hrehashed.get?_eq hfiled⟩

/-- Four slots with two entries, both of which belong in slot 1. -/
def misfiled : CookieTable Nat where
  slots := #[some { name := [97], value := 7, cookie := ⟨1⟩ }, none, none,
    some { name := [98], value := 8, cookie := ⟨5⟩ }]
  fits := by decide

/-- Two slots with the entries that belong there. -/
def pair : CookieTable Nat where
  slots := #[some { name := [97], value := 7, cookie := ⟨4⟩ },
    some { name := [98], value := 8, cookie := ⟨3⟩ }]
  fits := by decide

/-- The entries that belong in one of four slots belong in two of eight. -/
theorem rehash_exact_misfiled :
    misfiled.rehash 4 = .error (.corrupt (.rehashCollision ⟨5⟩ 4)) ∧
      (∃ t', misfiled.rehash 8 = .ok t' ∧ misfiled.Rehashed 8 t') ∧
      (∃ t', pair.rehash 4 = .ok t' ∧ pair.Rehashed 4 t' ∧ ∀ c, t'.get? c = pair.get? c) ∧
      pair.rehash (1 <<< 57) = .error .noRoom := by
  obtain ⟨-, hto4⟩ := rehash_exact misfiled (show Nat.isPowerOfTwo 4 from ⟨2, rfl⟩)
  obtain ⟨-, hstops, -, -⟩ := hto4 (by decide)
  obtain ⟨-, hto8⟩ := rehash_exact misfiled (show Nat.isPowerOfTwo 8 from ⟨3, rfl⟩)
  obtain ⟨-, -, hkeeps, -⟩ := hto8 (by decide)
  obtain ⟨-, hgrow⟩ := rehash_exact pair (show Nat.isPowerOfTwo 4 from ⟨2, rfl⟩)
  obtain ⟨-, -, -, hgrows⟩ := hgrow (by decide)
  obtain ⟨hlarge, -⟩ := rehash_exact pair (show Nat.isPowerOfTwo (1 <<< 57) from ⟨57, rfl⟩)
  have hfirst : misfiled.FirstClash 4 3 { name := [98], value := 8, cookie := ⟨5⟩ } :=
    ⟨rfl, ⟨0, by decide⟩, by decide⟩
  have hapart : ∀ i < 4, ∀ j < 4, i ≠ j → ¬ misfiled.Clash 8 i j := by decide
  refine ⟨(hstops _).2 ⟨3, _, hfirst, rfl⟩, hkeeps fun i j hne hclash => ?_,
    hgrows ⟨1, rfl⟩ (by decide) (by decide), hlarge (by decide)⟩
  obtain ⟨hi, hj⟩ := hclash.lt_capacity
  exact hapart i hi j hj hne hclash

/-- There is no room for 2^60 slots, though the entries of the two slots are in the slots of their
cookies and would not clash among so many. -/
theorem rehash_pair_noRoom :
    pair.Filed ∧ pair.capacity.isPowerOfTwo ∧ pair.capacity ≤ 1 <<< 60 ∧
      (¬ ∃ i j, i ≠ j ∧ pair.Clash (1 <<< 60) i j) ∧
      pair.rehash (1 <<< 60) = .error .noRoom := by
  have hfiled : pair.Filed := by decide
  refine ⟨hfiled, ⟨1, rfl⟩, by decide, ?_, pair.rehash_eq_noRoom (by decide)⟩
  rintro ⟨i, j, hne, hclash⟩
  exact hfiled.not_clash (by decide) hne hclash

end CookieTable

end NameIndex
