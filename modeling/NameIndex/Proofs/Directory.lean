import Mathlib.Data.List.Nodup
import NameIndex.Operation
import NameIndex.Proofs.Thread

/-!
# Directories

A directory is what an index is for: a finite map from names to cookies and values, without slots,
levels or links. `Directory.Step` says which answer a request may get from it and what it becomes.
Only the cookie of a new binding is left open, so long as none like it has been spent before.
-/

namespace NameIndex

namespace Record

variable {V : Type}

/-- The record with another value, if it is that of a cookie. -/
def setValue (c : Cookie) (v : V) (r : Record V) : Record V :=
  if r.cookie = c then { r with value := v } else r

@[simp] theorem name_setValue (c : Cookie) (v : V) (r : Record V) :
    (r.setValue c v).name = r.name := by
  unfold setValue
  split_ifs <;> rfl

@[simp] theorem cookie_setValue (c : Cookie) (v : V) (r : Record V) :
    (r.setValue c v).cookie = r.cookie := by
  unfold setValue
  split_ifs <;> rfl

end Record

/-- A map from names to cookies and values. -/
structure Directory (V : Type) where
  /-- The bindings. -/
  records : List (Record V)
  /-- The number of the last cookie spent. -/
  last : Nat
  /-- The number of bindings that there is room for. -/
  limit : Nat
  /-- Each name is bound once, and the bindings are in name order. -/
  sorted : records.Pairwise fun r s => r.name < s.name
  /-- Each cookie is bound once. -/
  cookies : (records.map Record.cookie).Nodup
  /-- Every cookie bound has been spent. -/
  spent : ∀ r ∈ records, r.cookie.val ≤ last

/-- One use of a directory. -/
inductive Request (V : Type) where
  /-- Enrolls an entry. -/
  | enroll (entry : Entry V)
  /-- Removes the entry of a cookie. -/
  | remove (cookie : Cookie)
  /-- Looks up the entry of a name and removes it. -/
  | removeName (name : Name)
  /-- Reads the entry of a cookie. -/
  | get (cookie : Cookie)
  /-- Asks whether a cookie has an entry. -/
  | contains (cookie : Cookie)
  /-- Changes the value of the entry of a cookie. -/
  | set (cookie : Cookie) (value : V)
  /-- Counts the entries. -/
  | length
  /-- Asks whether there are no entries. -/
  | isEmpty
  /-- Reads the entry of a name. -/
  | lookup (name : Name)
  /-- Removes all entries. -/
  | drain

namespace Directory

variable {V : Type}

/-- The directory without bindings. -/
def empty (limit : Nat) : Directory V where
  records := []
  last := 0
  limit
  sorted := .nil
  cookies := .nil
  spent := fun _ hr => absurd hr List.not_mem_nil

variable (d : Directory V)

/-- The binding of a name. -/
def find? (name : Name) : Option (Record V) := d.records.find? fun r => r.name = name

/-- The binding of a cookie. -/
def get? (c : Cookie) : Option (Record V) := d.records.find? fun r => r.cookie = c

/-- Binds the name of an entry to the value of the entry and a cookie that has not been spent. -/
def insert (e : Entry V) (c : Cookie) (h : d.last < c.val) : Directory V where
  records := (d.records.filter fun r => r.name < e.name) ++
    ⟨e.name, e.value, c⟩ :: d.records.filter fun r => e.name < r.name
  last := c.val
  limit := d.limit
  sorted := by
    rw [List.pairwise_append, List.pairwise_cons]
    refine ⟨d.sorted.filter _, ⟨fun s hs => ?_, d.sorted.filter _⟩, fun r hr s hs => ?_⟩
    · exact of_decide_eq_true (List.mem_filter.1 hs).2
    · have hlt := of_decide_eq_true (List.mem_filter.1 hr).2
      rcases List.mem_cons.1 hs with rfl | hs
      · exact hlt
      · exact List.lt_trans hlt (of_decide_eq_true (List.mem_filter.1 hs).2)
  cookies := by
    have hfresh : ∀ r ∈ d.records, r.cookie ≠ c := fun r hr hc => by
      have := d.spent r hr
      rw [hc] at this
      omega
    -- The old bindings differ by what they were, and from the new one since it is fresh.
    have hcookies := d.cookies
    rw [List.Nodup, List.pairwise_map] at hcookies ⊢
    rw [List.pairwise_append, List.pairwise_cons]
    refine ⟨hcookies.filter _, ⟨fun s hs => ?_, hcookies.filter _⟩, fun r hr s hs => ?_⟩
    · exact (hfresh s (List.mem_filter.1 hs).1).symm
    · obtain ⟨hr, hlt⟩ := List.mem_filter.1 hr
      rcases List.mem_cons.1 hs with rfl | hs
      · exact hfresh r hr
      · obtain ⟨hs, hlt'⟩ := List.mem_filter.1 hs
        have hname : r.name < s.name :=
          List.lt_trans (of_decide_eq_true hlt) (of_decide_eq_true hlt')
        exact fun hc => Name.ne_of_lt hname
          (congrArg Record.name (List.inj_on_of_nodup_map d.cookies hr hs hc))
  spent := by
    have hold : ∀ r ∈ d.records, r.cookie.val ≤ c.val := fun r hr => by
      have := d.spent r hr
      omega
    rw [List.forall_mem_append, List.forall_mem_cons]
    exact ⟨fun r hr => hold r (List.mem_filter.1 hr).1, Nat.le_refl _,
      fun r hr => hold r (List.mem_filter.1 hr).1⟩

/-- The bindings after an insertion are the new one and those before. -/
theorem mem_insert_iff {d : Directory V} {e : Entry V} {c : Cookie} (h : d.last < c.val)
    (habsent : d.find? e.name = none) {r : Record V} :
    r ∈ (d.insert e c h).records ↔ r = ⟨e.name, e.value, c⟩ ∨ r ∈ d.records := by
  rw [find?, List.find?_eq_none] at habsent
  rw [insert, List.mem_append, List.mem_cons, List.mem_filter, List.mem_filter, decide_eq_true_eq,
    decide_eq_true_eq]
  constructor
  · rintro (⟨hr, -⟩ | rfl | ⟨hr, -⟩)
    · exact .inr hr
    · exact .inl rfl
    · exact .inr hr
  · rintro (rfl | hr)
    · exact .inr (.inl rfl)
    · -- Its name is not the new one, so it comes before that or after it.
      have hname : ¬ r.name = e.name := fun hname => habsent r hr (decide_eq_true hname)
      by_cases hlt : r.name < e.name
      · exact .inl ⟨hr, hlt⟩
      · exact .inr (.inr ⟨hr, by_contra fun hgt => hname (Name.eq_of_not_lt hlt hgt)⟩)

/-- The bindings are distinct. -/
theorem records_nodup (d : Directory V) : d.records.Nodup :=
  d.cookies.of_map _

/-- An insertion adds one binding. -/
theorem insert_perm {d : Directory V} {e : Entry V} {c : Cookie} (h : d.last < c.val)
    (habsent : d.find? e.name = none) :
    (d.insert e c h).records.Perm (⟨e.name, e.value, c⟩ :: d.records) := by
  have hfresh : (⟨e.name, e.value, c⟩ : Record V) ∉ d.records := fun hr =>
    Nat.not_le_of_lt h (d.spent _ hr)
  refine (List.perm_ext_iff_of_nodup (records_nodup _) ?_).2 fun r => ?_
  · exact List.nodup_cons.2 ⟨hfresh, d.records_nodup⟩
  · exact (mem_insert_iff h habsent).trans List.mem_cons.symm

/-- Spends a cookie on nothing. -/
def spend (c : Cookie) (h : d.last < c.val) : Directory V where
  records := d.records
  last := c.val
  limit := d.limit
  sorted := d.sorted
  cookies := d.cookies
  spent := fun r hr => Nat.le_trans (d.spent r hr) (Nat.le_of_lt h)

/-- Keeps some of the bindings. -/
def filter (keep : Record V → Bool) : Directory V where
  records := d.records.filter keep
  last := d.last
  limit := d.limit
  sorted := d.sorted.filter _
  cookies := d.cookies.sublist (List.filter_sublist.map _)
  spent := fun r hr => d.spent r (List.mem_filter.1 hr).1

/-- Removes the binding of a cookie. -/
def erase (c : Cookie) : Directory V := d.filter fun r => r.cookie ≠ c

@[simp] theorem records_erase (d : Directory V) (c : Cookie) :
    (d.erase c).records = d.records.filter fun r => r.cookie ≠ c := rfl

/-- The bindings are that of a cookie, if there is one, and those left when it is removed. -/
theorem get?_erase_perm (d : Directory V) (c : Cookie) :
    ((d.get? c).toList ++ (d.erase c).records).Perm d.records := by
  rw [records_erase, get?]
  cases hget : d.records.find? fun r => r.cookie = c with
  | none =>
    have hne : ∀ r ∈ d.records, r.cookie ≠ c := fun r hr hc =>
      List.find?_eq_none.1 hget r hr (decide_eq_true hc)
    rw [List.filter_eq_self.2 fun r hr => decide_eq_true (hne r hr)]
    exact .refl _
  | some r =>
    have hr : r ∈ d.records := List.mem_of_find?_eq_some hget
    have hcookie := List.find?_some hget
    obtain rfl : r.cookie = c := of_decide_eq_true hcookie
    refine (List.perm_ext_iff_of_nodup ?_ d.records_nodup).2 fun s => ?_
    · refine List.nodup_cons.2 ⟨fun hmem => ?_, d.records_nodup.filter _⟩
      exact of_decide_eq_true (List.mem_filter.1 hmem).2 rfl
    · rw [Option.toList_some, List.singleton_append, List.mem_cons, List.mem_filter,
        decide_eq_true_eq]
      constructor
      · rintro (rfl | ⟨hs, -⟩)
        · exact hr
        · exact hs
      · intro hs
        by_cases hc : s.cookie = r.cookie
        · exact .inl (List.inj_on_of_nodup_map d.cookies hs hr hc)
        · exact .inr ⟨hs, hc⟩

/-- Removes the binding of a name. -/
def eraseName (name : Name) : Directory V := d.filter fun r => r.name ≠ name

/-- Removes all bindings. -/
def clear : Directory V := d.filter fun _ => false

/-- Changes the value that a cookie is bound with. -/
def setValue (c : Cookie) (v : V) : Directory V where
  records := d.records.map (Record.setValue c v)
  last := d.last
  limit := d.limit
  sorted := by
    rw [List.pairwise_map]
    simp only [Record.name_setValue]
    exact d.sorted
  cookies := by
    have hsame : Record.cookie ∘ Record.setValue c v = Record.cookie :=
      funext fun r => r.cookie_setValue c v
    rw [List.map_map, hsame]
    exact d.cookies
  spent := by
    rw [List.forall_mem_map]
    simp only [Record.cookie_setValue]
    exact d.spent

/-- The answers that a request may get from a directory, with the directory after it. An entry is
enrolled if its name is not bound and there is room, and refused otherwise. -/
inductive Step : Directory V → Request V → Answer V → Directory V → Prop where
  /-- A name is bound to a cookie never spent before. -/
  | enrolled {d : Directory V} {e : Entry V} {c : Cookie} (habsent : d.find? e.name = none)
      (hroom : d.records.length < d.limit) (hfresh : d.last < c.val) :
    Step d (.enroll e) (.enrolled c) (d.insert e c hfresh)
  /-- The name is bound. -/
  | duplicate {d : Directory V} {e : Entry V} {r : Record V} (hbound : d.find? e.name = some r) :
    Step d (.enroll e) (.refused ⟨.duplicateKey, e⟩) d
  /-- There is no room. -/
  | full {d : Directory V} {e : Entry V} {c : Cookie} {slot : Nat} (habsent : d.find? e.name = none)
      (hfull : d.records.length = d.limit) (hfresh : d.last < c.val) :
    Step d (.enroll e) (.refused ⟨.cookieCollision c slot, e⟩) (d.spend c hfresh)
  /-- The binding of a cookie goes back to the caller. -/
  | removed (d : Directory V) (c : Cookie) :
    Step d (.remove c) (.owned ((d.get? c).map Record.unlinked)) (d.erase c)
  /-- The binding of a name goes back to the caller. -/
  | removedName (d : Directory V) (name : Name) :
    Step d (.removeName name) (.owned ((d.find? name).map Record.unlinked)) (d.eraseName name)
  /-- The binding of a cookie is read. -/
  | got (d : Directory V) (c : Cookie) : Step d (.get c) (.record (d.get? c)) d
  /-- A cookie is bound or not. -/
  | contained (d : Directory V) (c : Cookie) : Step d (.contains c) (.truth (d.get? c).isSome) d
  /-- The value of a binding is changed. -/
  | changed (d : Directory V) (c : Cookie) (v : V) :
    Step d (.set c v) (.value ((d.get? c).map (·.value))) (d.setValue c v)
  /-- The bindings are counted. -/
  | counted (d : Directory V) : Step d .length (.number d.records.length) d
  /-- There are bindings or not. -/
  | askedEmpty (d : Directory V) : Step d .isEmpty (.truth d.records.isEmpty) d
  /-- The binding of a name is read. -/
  | looked (d : Directory V) (name : Name) : Step d (.lookup name) (.record (d.find? name)) d
  /-- All bindings go back to the caller in name order. -/
  | drained (d : Directory V) :
    Step d .drain (.drained (d.records.map Record.unlinked)) d.clear

end Directory

end NameIndex
