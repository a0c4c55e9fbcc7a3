import Mathlib.Data.List.Sort
import NameIndex.Proofs.Check
import NameIndex.Proofs.Query

/-!
# Queries as scans

The entries of an index, sorted by name, are a list in which every query has a plain meaning: the
ends are its ends, a name cuts it in two, and the neighbours of a cookie stand next to the entry
that carries it (`Scans`). A threaded index answers every query by that meaning, whatever the
heights of its entries (`Threaded.scans`), and answers `none` exactly where the list has no such
entry (`Scans.blanks`).
-/

namespace NameIndex

variable {G V : Type}

/-! ## Entries in name order -/

/-- Whether an entry does not come after another by name. -/
def Entry.NotAfter (a b : Entry V) : Prop := ¬ b.name < a.name

instance : DecidableRel (Entry.NotAfter (V := V)) := fun a b =>
  inferInstanceAs (Decidable (¬ b.name < a.name))

instance : Std.Total (Entry.NotAfter (V := V)) := ⟨fun a b => Name.not_lt_total a.name b.name⟩

instance : IsTrans (Entry V) Entry.NotAfter := ⟨fun _ _ _ => Name.not_lt_trans⟩

namespace Index

/-- The entries that an index holds, sorted by name. -/
def inOrder (ix : Index G V) : List (Entry V) := ix.table.live.insertionSort Entry.NotAfter

/-- The sorted entries are those that the index holds. -/
theorem inOrder_perm (ix : Index G V) : ix.inOrder.Perm ix.table.live :=
  List.perm_insertionSort _ _

variable {ix : Index G V} {ns : List (Node V)}

/-- The entries of a threaded index, sorted by name, are the weave of its nodes. -/
theorem Threaded.inOrder_eq (h : ix.Threaded ns) : ix.inOrder = weave [] .null ns := by
  have hperm : ix.inOrder.Perm (weave [] .null ns) := ix.inOrder_perm.trans h.live_perm
  have hsorted : (weave [] .null ns).Pairwise Entry.NotAfter :=
    h.weave_sorted.imp fun hlt => List.lt_asymm hlt
  have hnames : ((weave [] .null ns).map Entry.name).Nodup := by
    rw [List.Nodup, List.pairwise_map]
    exact h.weave_sorted.imp Name.ne_of_lt
  refine hperm.eq_of_pairwise (fun a b ha hb hab hba => ?_) (List.pairwise_insertionSort _ _)
    hsorted
  have hsame : a.name = b.name := Name.eq_of_not_lt hba hab
  exact List.inj_on_of_nodup_map hnames (hperm.mem_iff.1 ha) hb hsame

/-- A place among the entries is a place among the nodes. -/
theorem weave_eq_append_cons {c : Cookie} {as bs : List (Entry V)} {e : Entry V}
    (h : weave [] c ns = as ++ e :: bs) :
    ∃ pre n post, ns = pre ++ n :: post ∧ as = weave (n :: post) c pre ∧
      e = n.linked (lastOf c pre) post ∧ bs = weave [] n.cookie post := by
  have hns : ns = as.map Entry.node ++ e.node :: bs.map Entry.node := by
    rw [← map_node_weave [] c ns, h, List.map_append, List.map_cons]
  refine ⟨as.map Entry.node, e.node, bs.map Entry.node, hns, ?_⟩
  rw [hns, weave_append, weave, List.append_nil, List.append_nil] at h
  have hlength : (weave (e.node :: bs.map Entry.node) c (as.map Entry.node)).length =
      as.length := by
    rw [length_weave, List.length_map]
  obtain ⟨has, hcons⟩ := List.append_inj h hlength
  obtain ⟨he, hbs⟩ := List.cons.inj hcons
  exact ⟨has.symm, he.symm, hbs.symm⟩

/-! ## The queries -/

/-- The queries of an index are scans of a list. -/
structure Scans (ix : Index G V) (es : List (Entry V)) : Prop where
  /-- The first entry of the list. -/
  first : ix.first = .ok es.head?
  /-- The last entry of the list. -/
  last : ix.last = .ok es.getLast?
  /-- The first of the entries whose names are not before the one sought. -/
  seek : ∀ name, ix.seek name = .ok (es.filter fun e => ¬ e.name < name).head?
  /-- The last of the entries whose names are not after the one sought. -/
  floor : ∀ name, ix.floor name = .ok (es.filter fun e => ¬ name < e.name).getLast?
  /-- The entry that has the name sought. -/
  lookup : ∀ name, ix.lookup name = .ok (es.find? fun e => e.name = name)
  /-- The entry that stands after that of a cookie. -/
  next : ∀ as e bs, es = as ++ e :: bs → ix.next e.cookie = .ok bs.head?
  /-- The entry that stands before that of a cookie. -/
  prev : ∀ as e bs, es = as ++ e :: bs → ix.prev e.cookie = .ok as.getLast?
  /-- A cookie that no entry carries has no neighbours. -/
  unknown : ∀ c, (∀ e ∈ es, e.cookie ≠ c) → ix.next c = .ok none ∧ ix.prev c = .ok none

/-- The queries of an index answer `none` exactly if the list has no such entry. -/
structure Blanks (ix : Index G V) (es : List (Entry V)) : Prop where
  /-- Only an empty list has no first entry. -/
  first : ix.first = .ok none ↔ es = []
  /-- Only an empty list has no last entry. -/
  last : ix.last = .ok none ↔ es = []
  /-- No name is at or after the one sought. -/
  seek : ∀ name, ix.seek name = .ok none ↔ ¬ ∃ e ∈ es, ¬ e.name < name
  /-- No name is at or before the one sought. -/
  floor : ∀ name, ix.floor name = .ok none ↔ ¬ ∃ e ∈ es, ¬ name < e.name
  /-- No entry has the name sought. -/
  lookup : ∀ name, ix.lookup name = .ok none ↔ ¬ ∃ e ∈ es, e.name = name
  /-- No entry comes after one of the cookie. -/
  next : ∀ c, ix.next c = .ok none ↔ ¬ ∃ e ∈ es, e.cookie = c ∧ ∃ d ∈ es, e.name < d.name
  /-- No entry comes before one of the cookie. -/
  prev : ∀ c, ix.prev c = .ok none ↔ ¬ ∃ e ∈ es, e.cookie = c ∧ ∃ d ∈ es, d.name < e.name

/-- The queries of a threaded index are scans of its entries in name order. -/
theorem Threaded.scans (h : ix.Threaded ns) : ix.Scans (weave [] .null ns) where
  first := h.first_eq
  last := h.last_eq
  seek := h.seek_scan
  floor := h.floor_scan
  lookup := h.lookup_scan
  next := by
    intro as e bs hes
    obtain ⟨pre, n, post, rfl, -, rfl, rfl⟩ := weave_eq_append_cons hes
    exact h.next_eq
  prev := by
    intro as e bs hes
    obtain ⟨pre, n, post, rfl, rfl, rfl, -⟩ := weave_eq_append_cons hes
    exact h.prev_eq
  unknown := by
    intro c hc
    have hunknown : ∀ n ∈ ns, n.cookie ≠ c := by
      intro n hn
      obtain ⟨e, he, rfl⟩ := exists_mem_weave hn
      exact hc e he
    exact ⟨h.next_none hunknown, h.prev_none hunknown⟩

/-- In an ascending list the entries of greater names than one of it are those that follow it. -/
theorem mem_and_name_lt_iff {as bs : List (Entry V)} {e d : Entry V}
    (hsorted : (as ++ e :: bs).Pairwise fun a b => a.name < b.name) :
    d ∈ as ++ e :: bs ∧ e.name < d.name ↔ d ∈ bs := by
  obtain ⟨-, hafter, hbefore⟩ := List.pairwise_append.1 hsorted
  constructor
  · rintro ⟨hd, hlt⟩
    rcases List.mem_append.1 hd with hd | hd
    · exact absurd hlt (List.lt_asymm (hbefore d hd e List.mem_cons_self))
    · rcases List.mem_cons.1 hd with rfl | hd
      · exact absurd hlt (List.lt_irrefl _)
      · exact hd
  · intro hd
    exact ⟨by simp [hd], (List.pairwise_cons.1 hafter).1 d hd⟩

/-- In an ascending list the entries of lesser names than one of it are those that it follows. -/
theorem mem_and_lt_name_iff {as bs : List (Entry V)} {e d : Entry V}
    (hsorted : (as ++ e :: bs).Pairwise fun a b => a.name < b.name) :
    d ∈ as ++ e :: bs ∧ d.name < e.name ↔ d ∈ as := by
  obtain ⟨-, hafter, hbefore⟩ := List.pairwise_append.1 hsorted
  constructor
  · rintro ⟨hd, hlt⟩
    rcases List.mem_append.1 hd with hd | hd
    · exact hd
    · rcases List.mem_cons.1 hd with rfl | hd
      · exact absurd hlt (List.lt_irrefl _)
      · exact absurd hlt (List.lt_asymm ((List.pairwise_cons.1 hafter).1 d hd))
  · intro hd
    exact ⟨by simp [hd], hbefore d hd e List.mem_cons_self⟩

namespace Scans

variable {es : List (Entry V)} {c : Cookie}

/-- A cookie has no next entry exactly if no entry comes after one that carries it. -/
theorem next_eq_none_iff (h : ix.Scans es) (hsorted : es.Pairwise fun a b => a.name < b.name) :
    ix.next c = .ok none ↔ ¬ ∃ e ∈ es, e.cookie = c ∧ ∃ d ∈ es, e.name < d.name := by
  constructor
  · rintro hnone ⟨e, he, rfl, d, hd⟩
    obtain ⟨as, bs, rfl⟩ := List.append_of_mem he
    rw [h.next as e bs rfl, Except.ok.injEq, List.head?_eq_none_iff] at hnone
    have hmem : d ∈ bs := (mem_and_name_lt_iff hsorted).1 hd
    rw [hnone] at hmem
    exact List.not_mem_nil hmem
  · intro hnone
    by_cases hknown : ∃ e ∈ es, e.cookie = c
    · obtain ⟨e, he, rfl⟩ := hknown
      obtain ⟨as, bs, rfl⟩ := List.append_of_mem he
      rw [h.next as e bs rfl, Except.ok.injEq, List.head?_eq_none_iff,
        List.eq_nil_iff_forall_not_mem]
      exact fun d hd => hnone ⟨e, he, rfl, d, (mem_and_name_lt_iff hsorted).2 hd⟩
    · exact (h.unknown c fun e he hc => hknown ⟨e, he, hc⟩).1

/-- A cookie has no previous entry exactly if no entry comes before one that carries it. -/
theorem prev_eq_none_iff (h : ix.Scans es) (hsorted : es.Pairwise fun a b => a.name < b.name) :
    ix.prev c = .ok none ↔ ¬ ∃ e ∈ es, e.cookie = c ∧ ∃ d ∈ es, d.name < e.name := by
  constructor
  · rintro hnone ⟨e, he, rfl, d, hd⟩
    obtain ⟨as, bs, rfl⟩ := List.append_of_mem he
    rw [h.prev as e bs rfl, Except.ok.injEq, List.getLast?_eq_none_iff] at hnone
    have hmem : d ∈ as := (mem_and_lt_name_iff hsorted).1 hd
    rw [hnone] at hmem
    exact List.not_mem_nil hmem
  · intro hnone
    by_cases hknown : ∃ e ∈ es, e.cookie = c
    · obtain ⟨e, he, rfl⟩ := hknown
      obtain ⟨as, bs, rfl⟩ := List.append_of_mem he
      rw [h.prev as e bs rfl, Except.ok.injEq, List.getLast?_eq_none_iff,
        List.eq_nil_iff_forall_not_mem]
      exact fun d hd => hnone ⟨e, he, rfl, d, (mem_and_lt_name_iff hsorted).2 hd⟩
    · exact (h.unknown c fun e he hc => hknown ⟨e, he, hc⟩).2

/-- Scans of a sorted list come to nothing exactly if there is nothing to be found. -/
theorem blanks (h : ix.Scans es) (hsorted : es.Pairwise fun a b => a.name < b.name) :
    ix.Blanks es where
  first := by rw [h.first, Except.ok.injEq, List.head?_eq_none_iff]
  last := by rw [h.last, Except.ok.injEq, List.getLast?_eq_none_iff]
  seek := by
    intro name
    rw [h.seek, Except.ok.injEq, List.head?_eq_none_iff, List.filter_eq_nil_iff]
    simp
  floor := by
    intro name
    rw [h.floor, Except.ok.injEq, List.getLast?_eq_none_iff, List.filter_eq_nil_iff]
    simp
  lookup := by
    intro name
    rw [h.lookup, Except.ok.injEq, List.find?_eq_none]
    simp
  next := fun _ => h.next_eq_none_iff hsorted
  prev := fun _ => h.prev_eq_none_iff hsorted

end Scans

/-- The queries of an index that passes its check are scans of the entries that it holds, sorted by
name. The names ascend strictly, and a query answers `none` exactly if there is no such entry. -/
theorem queries_exact {n : Nat} (hcheck : ix.check = .ok n) :
    ix.inOrder.Perm ix.table.live ∧ (ix.inOrder.Pairwise fun a b => a.name < b.name) ∧
      ix.Scans ix.inOrder ∧ ix.Blanks ix.inOrder := by
  obtain ⟨ns, h⟩ := exists_threaded_of_check hcheck
  have hperm := ix.inOrder_perm
  rw [h.inOrder_eq] at hperm ⊢
  exact ⟨hperm, h.weave_sorted, h.scans, h.scans.blanks h.weave_sorted⟩

/-- An index of three entries, the second of which in name order is a proper extension of the
first. -/
def trio : Index Unit Nat where
  table := ⟨#[none, some { name := [98], value := 7, cookie := ⟨1⟩, links := [.null], prev := ⟨3⟩ },
    some { name := [97], value := 8, cookie := ⟨2⟩, links := [⟨3⟩, .null] },
    some { name := [97, 98], value := 9, cookie := ⟨3⟩, links := [⟨1⟩], prev := ⟨2⟩ }], by decide⟩
  heads := [⟨2⟩, ⟨2⟩]
  tail := ⟨1⟩
  lastCookie := 3
  count := 3
  maxCapacity := 4
  source := ()

/-- The index is asked for names that it does not hold, and for the neighbours of its entries. -/
theorem queries_exact_trio :
    trio.inOrder.map Entry.name = [[97], [97, 98], [98]] ∧
      (∃ e, trio.seek [97, 0] = .ok (some e) ∧ e.cookie = ⟨3⟩) ∧
      (∃ e, trio.floor [97, 99] = .ok (some e) ∧ e.cookie = ⟨3⟩) ∧ trio.floor [] = .ok none ∧
      trio.prev ⟨2⟩ = .ok none ∧ trio.next ⟨4⟩ = .ok none := by
  have hcheck : trio.check = .ok 3 := by rfl
  obtain ⟨-, -, hscans, hblanks⟩ := queries_exact hcheck
  exact ⟨by decide, ⟨_, hscans.seek [97, 0], by decide⟩, ⟨_, hscans.floor [97, 99], by decide⟩,
    (hblanks.floor []).2 (by decide), (hblanks.prev ⟨2⟩).2 (by decide),
    (hblanks.next ⟨4⟩).2 (by decide)⟩

end Index

end NameIndex
