import Mathlib.Data.List.Nodup
import NameIndex.Index.Basic
import NameIndex.Proofs.Storage
import NameIndex.Proofs.Thread

/-!
# The layout of an index

`ix.Threaded ns` says that the index `ix` is the one that the nodes `ns` determine: they ascend
strictly in name order, the table stores them with the links of their weave, the heads and the tail
are the ends of the list, and the numbers agree. Every link that an operation follows is then a
reading of the list (`successor_lastAt`, `get?_eq_some_iff`, `front_eq`). `ix.Layout ns` adds that
the table has a size that it may have, without which it could not grow.
-/

namespace NameIndex

attribute [ext] Index

variable {G V : Type}

/-- The index holds the given nodes in this order, with the links that the order asks for. -/
structure Index.Threaded (ix : Index G V) (ns : List (Node V)) : Prop where
  /-- The names ascend. -/
  sorted : ns.Pairwise fun a b => a.name < b.name
  /-- The table stores the nodes with their links. -/
  stores : ix.table.Stores (weave [] .null ns)
  /-- Each head is the first cookie of its level. -/
  heads : ∀ level < ix.heads.length, ix.heads[level]? = some (firstAt level ns)
  /-- The tail is the last cookie. -/
  tail : ix.tail = lastOf .null ns
  /-- The count is the number of nodes. -/
  count : ix.count = ns.length
  /-- There are no more levels than an entry may have. -/
  levels : ix.heads.length ≤ maxLevels
  /-- Every node has a level, and no more levels than the index. -/
  heights : ∀ n ∈ ns, 1 ≤ n.height ∧ n.height ≤ ix.heads.length
  /-- Every cookie has been given out. -/
  issued : ∀ n ∈ ns, 1 ≤ n.cookie.val ∧ n.cookie.val ≤ ix.lastCookie

/-- The index threads the given nodes, in a table of a size that it may have. -/
structure Index.Layout (ix : Index G V) (ns : List (Node V)) : Prop extends ix.Threaded ns where
  /-- The number of slots is a power of two. -/
  capacity : ix.capacity.isPowerOfTwo

/-- An index without nodes, whatever its levels. -/
theorem Index.threaded_nil {ix : Index G V} (hstores : ix.table.Stores [])
    (hheads : ∀ c ∈ ix.heads, c = .null) (htail : ix.tail = .null) (hcount : ix.count = 0)
    (hlevels : ix.heads.length ≤ maxLevels) : ix.Threaded [] where
  sorted := .nil
  stores := hstores
  heads := by
    intro level hlevel
    rw [List.getElem?_eq_getElem hlevel, hheads _ (List.getElem_mem hlevel)]
    rfl
  tail := htail
  count := hcount
  levels := hlevels
  heights := fun n hn => absurd hn List.not_mem_nil
  issued := fun n hn => absurd hn List.not_mem_nil

/-- No node has a property, or the nodes split at one that has it. -/
theorem node_cases (p : Node V → Prop) (ns : List (Node V)) :
    (∀ n ∈ ns, ¬ p n) ∨ ∃ pre n post, ns = pre ++ n :: post ∧ p n := by
  by_cases h : ∃ n ∈ ns, p n
  · obtain ⟨n, hn, hp⟩ := h
    obtain ⟨pre, post, rfl⟩ := List.append_of_mem hn
    exact .inr ⟨pre, n, post, rfl, hp⟩
  · exact .inl fun n hn hp => h ⟨n, hn, hp⟩

/-- Ascending nodes split at any name into those before it and the others. -/
theorem exists_split_at {ns : List (Node V)} (h : ns.Pairwise fun a b => a.name < b.name)
    (name : Name) :
    ∃ pre post, ns = pre ++ post ∧ (∀ n ∈ pre, n.name < name) ∧ ∀ n ∈ post, ¬ n.name < name := by
  induction ns with
  | nil => exact ⟨[], [], rfl, by simp, by simp⟩
  | cons n ns ih =>
    rw [List.pairwise_cons] at h
    by_cases hn : n.name < name
    · obtain ⟨pre, post, rfl, hpre, hpost⟩ := ih h.2
      exact ⟨n :: pre, post, rfl, List.forall_mem_cons.2 ⟨hn, hpre⟩, hpost⟩
    · refine ⟨[], n :: ns, rfl, by simp, List.forall_mem_cons.2 ⟨hn, fun m hm hlt => ?_⟩⟩
      exact hn (List.lt_trans (h.1 m hm) hlt)

/-- Nodes split at a name in one way only. -/
theorem split_at_unique {name : Name} {pre post pre' post' : List (Node V)}
    (hpre : ∀ n ∈ pre, n.name < name) (hpost : ∀ n ∈ post, ¬ n.name < name)
    (hpre' : ∀ n ∈ pre', n.name < name) (hpost' : ∀ n ∈ post', ¬ n.name < name)
    (h : pre ++ post = pre' ++ post') : pre = pre' ∧ post = post' := by
  -- The first part is what a filter keeps of the whole.
  have hkept : ∀ {as bs : List (Node V)}, (∀ n ∈ as, n.name < name) →
      (∀ n ∈ bs, ¬ n.name < name) → (as ++ bs).filter (fun n => n.name < name) = as := by
    intro as bs has hbs
    rw [List.filter_append, List.filter_eq_self.2 fun n hn => decide_eq_true (has n hn),
      List.filter_eq_nil_iff.2 fun n hn => by simpa using hbs n hn, List.append_nil]
  have hsame : pre = pre' := by
    rw [← hkept hpre hpost, h, hkept hpre' hpost']
  subst hsame
  exact ⟨rfl, List.append_cancel_left h⟩

namespace Index.Threaded

variable {ix : Index G V} {ns pre post as bs : List (Node V)} {n : Node V}

theorem ne_null (h : ix.Threaded ns) {n : Node V} (hn : n ∈ ns) : n.cookie ≠ .null := by
  intro hc
  have := (h.issued n hn).1
  rw [hc] at this
  exact Nat.not_succ_le_zero 0 this

/-- The cookie of a node is that of an entry. -/
theorem cookie_ne_null (h : ix.Threaded (pre ++ n :: post)) : n.cookie ≠ .null :=
  h.ne_null (List.mem_append_right pre List.mem_cons_self)

/-- A node has a level, and no more levels than the index. -/
theorem height_bounds (h : ix.Threaded (pre ++ n :: post)) :
    1 ≤ n.height ∧ n.height ≤ ix.heads.length :=
  h.heights n (List.mem_append_right pre List.mem_cons_self)

/-- Level 0 passes the first of the nodes after a place. -/
theorem firstAt_zero (h : ix.Threaded (pre ++ n :: post)) : firstAt 0 (n :: post) = n.cookie :=
  firstAt_cons_of_lt h.height_bounds.1

/-- The names are distinct. -/
theorem names_nodup (h : ix.Threaded ns) : (ns.map (·.name)).Nodup := by
  rw [List.Nodup, List.pairwise_map]
  exact h.sorted.imp Name.ne_of_lt

theorem nodup (h : ix.Threaded ns) : ns.Nodup := h.names_nodup.of_map _

/-- A name cuts the nodes at the node that has it. -/
theorem lt_name_of_mem (h : ix.Threaded (pre ++ n :: post)) : ∀ m ∈ pre, m.name < n.name :=
  fun m hm => (List.pairwise_append.1 h.sorted).2.2 m hm n List.mem_cons_self

theorem name_lt_of_mem (h : ix.Threaded (pre ++ n :: post)) : ∀ m ∈ post, n.name < m.name :=
  (List.pairwise_cons.1 (List.pairwise_append.1 h.sorted).2.1).1

theorem not_lt_name (h : ix.Threaded (pre ++ n :: post)) : ∀ m ∈ n :: post, ¬ m.name < n.name := by
  rw [List.forall_mem_cons]
  exact ⟨List.lt_irrefl _, fun m hm => List.lt_asymm (h.name_lt_of_mem m hm)⟩

/-- The stored entries are distinct. -/
theorem weave_nodup (h : ix.Threaded ns) : (weave [] .null ns).Nodup := by
  refine List.Nodup.of_map Entry.node ?_
  rw [map_node_weave]
  exact h.nodup

/-- The stored entries ascend by name as their nodes do. -/
theorem weave_sorted (h : ix.Threaded ns) :
    (weave [] .null ns).Pairwise fun a b => a.name < b.name := by
  have hsorted := h.sorted
  rw [← map_node_weave [] .null ns, List.pairwise_map] at hsorted
  exact hsorted

/-- The cookies are distinct. -/
theorem cookies_nodup (h : ix.Threaded ns) : (ns.map (·.cookie)).Nodup := by
  rw [← map_cookie_weave [] .null ns]
  exact h.weave_nodup.map_on fun _ he _ he' hc => h.stores.eq_of_cookie_eq he he' hc

/-- Nodes on the two sides of a place have different cookies, and so have those on one side. -/
theorem cookies_append (h : ix.Threaded (pre ++ post)) :
    (pre.map (·.cookie)).Nodup ∧ (post.map (·.cookie)).Nodup ∧
      ∀ m ∈ pre, ∀ m' ∈ post, m.cookie ≠ m'.cookie := by
  have hnodup := h.cookies_nodup
  rw [List.map_append, List.nodup_append] at hnodup
  obtain ⟨hpre, hpost, hdisjoint⟩ := hnodup
  exact ⟨hpre, hpost, fun m hm m' hm' =>
    hdisjoint _ (List.mem_map_of_mem hm) _ (List.mem_map_of_mem hm')⟩

/-- The cookie of a node is that of no other node. -/
theorem cookie_ne (h : ix.Threaded (pre ++ n :: post)) :
    ∀ m ∈ pre ++ post, m.cookie ≠ n.cookie := by
  have hnodup := h.cookies_nodup
  rw [List.map_append, List.map_cons, List.nodup_middle, List.nodup_cons,
    ← List.map_append] at hnodup
  exact fun m hm hc => hnodup.1 (List.mem_map.2 ⟨m, hm, hc⟩)

/-- The name of a node is that of no other node. -/
theorem name_ne (h : ix.Threaded (pre ++ n :: post)) : ∀ m ∈ pre ++ post, m.name ≠ n.name := by
  have hnodup := h.names_nodup
  rw [List.map_append, List.map_cons, List.nodup_middle, List.nodup_cons,
    ← List.map_append] at hnodup
  exact fun m hm hname => hnodup.1 (List.mem_map.2 ⟨m, hm, hname⟩)

/-- A cookie leads to its node, with its links. -/
theorem get?_eq_some_iff (h : ix.Threaded ns) {c : Cookie} {e : Entry V} :
    ix.table.get? c = some e ↔
      ∃ as n bs, ns = as ++ n :: bs ∧ n.cookie = c ∧ e = n.linked (lastOf .null as) bs := by
  rw [h.stores.get?_eq_some_iff]
  constructor
  · rintro ⟨-, he, rfl⟩
    obtain ⟨as, n, bs, hns, rfl⟩ := mem_weave_iff.1 he
    exact ⟨as, n, bs, hns, rfl, by rw [List.append_nil]⟩
  · rintro ⟨as, n, bs, hns, rfl, rfl⟩
    refine ⟨h.ne_null (by rw [hns]; simp), mem_weave_iff.2 ⟨as, n, bs, hns, ?_⟩, rfl⟩
    rw [List.append_nil]

/-- The node of a cookie, with its links. -/
theorem get?_cookie (h : ix.Threaded (as ++ n :: bs)) :
    ix.table.get? n.cookie = some (n.linked (lastOf .null as) bs) :=
  h.get?_eq_some_iff.2 ⟨as, n, bs, rfl, rfl, rfl⟩

/-- The cookie of a node is known. -/
theorem resolve_cookie (h : ix.Threaded (as ++ n :: bs)) :
    ix.resolve n.cookie = .ok (n.linked (lastOf .null as) bs) := by
  rw [resolve, h.get?_cookie]

/-- A cookie leads nowhere when no node has it. -/
theorem get?_eq_none_iff (h : ix.Threaded ns) {c : Cookie} :
    ix.table.get? c = none ↔ ∀ n ∈ ns, n.cookie ≠ c := by
  rw [Option.eq_none_iff_forall_ne_some]
  constructor
  · rintro hnone n hn rfl
    obtain ⟨as, bs, rfl⟩ := List.append_of_mem hn
    exact hnone _ h.get?_cookie
  · intro hne e he
    obtain ⟨as, n, bs, rfl, hc, -⟩ := h.get?_eq_some_iff.1 he
    exact hne n (by simp) hc

/-- Without levels there are no nodes. -/
theorem nil_of_levels (h : ix.Threaded ns) (hlevels : ix.heads.length = 0) : ns = [] :=
  nil_of_low (fun n hn => (h.heights n hn).1) fun n hn => by
    rw [← hlevels]
    exact (h.heights n hn).2

/-- Level 0 starts at the first node. -/
theorem front_eq (h : ix.Threaded ns) : ix.front = firstAt 0 ns := by
  rw [Index.front, List.headD_eq_head?_getD, List.head?_eq_getElem?]
  rcases Nat.eq_zero_or_pos ix.heads.length with hzero | hpos
  · rw [List.getElem?_eq_none (by omega), h.nil_of_levels hzero]
    rfl
  · rw [h.heads 0 hpos, Option.getD_some]

/-- The entries held are those of the nodes. -/
theorem live_perm (h : ix.Threaded ns) : ix.table.live.Perm (weave [] .null ns) :=
  h.stores.live_perm h.weave_nodup

/-- Their cookies are those of the nodes. -/
theorem cookies_perm (h : ix.Threaded ns) :
    (ix.table.live.map Entry.cookie).Perm (ns.map (·.cookie)) := by
  rw [← map_cookie_weave [] .null ns]
  exact h.live_perm.map Entry.cookie

/-- Their names are those of the nodes. -/
theorem names_perm (h : ix.Threaded ns) :
    (ix.table.live.map Entry.name).Perm (ns.map (·.name)) := by
  rw [← map_name_weave [] .null ns]
  exact h.live_perm.map Entry.name

theorem length_live (h : ix.Threaded ns) : ix.table.live.length = ns.length := by
  rw [h.live_perm.length_eq, length_weave]

/-- No more nodes are stored than there are slots. -/
theorem length_le_capacity (h : ix.Threaded ns) : ns.length ≤ ix.capacity := by
  rw [← h.length_live]
  exact ix.table.length_live_le

/-- The holder of a level before a place links to the first node after that place. -/
theorem successor_lastAt (h : ix.Threaded (pre ++ post)) {level : Nat}
    (hlevel : level < ix.heads.length) :
    ix.successor (lastAt level .null pre) level = .ok (firstAt level post) := by
  -- Where the level passes no node before the place, the heads hold it.
  rcases low_or_last level pre with hlow | ⟨as, n, bs, rfl, hn, hlow⟩
  · rw [lastAt_of_low hlow, successor, if_pos rfl, h.heads level hlevel,
      firstAt_append_of_low hlow]
  · rw [List.append_assoc, List.cons_append] at h
    rw [lastAt_append_cons hn hlow, successor, if_neg h.cookie_ne_null, h.resolve_cookie, ok_bind,
      Node.links_linked_getElem?, if_pos hn, firstAt_append_of_low hlow]

end Index.Threaded

/-! ## What the nodes do not determine -/

namespace Index

/-- The indexes agree in what their nodes do not determine. -/
structure SameFrame (ix ix' : Index G V) : Prop where
  /-- There are as many slots. -/
  capacity : ix'.capacity = ix.capacity
  /-- There are as many levels. -/
  levels : ix'.heads.length = ix.heads.length
  /-- The same cookies have been given out. -/
  lastCookie : ix'.lastCookie = ix.lastCookie
  /-- The table may grow to as many slots. -/
  maxCapacity : ix'.maxCapacity = ix.maxCapacity
  /-- The draws go on in the same way. -/
  source : ix'.source = ix.source

namespace SameFrame

variable {ix₁ ix₂ ix₃ : Index G V}

theorem refl (ix : Index G V) : ix.SameFrame ix := ⟨rfl, rfl, rfl, rfl, rfl⟩

theorem symm (h : ix₁.SameFrame ix₂) : ix₂.SameFrame ix₁ :=
  ⟨h.capacity.symm, h.levels.symm, h.lastCookie.symm, h.maxCapacity.symm, h.source.symm⟩

theorem trans (h : ix₁.SameFrame ix₂) (h' : ix₂.SameFrame ix₃) : ix₁.SameFrame ix₃ where
  capacity := h'.capacity.trans h.capacity
  levels := h'.levels.trans h.levels
  lastCookie := h'.lastCookie.trans h.lastCookie
  maxCapacity := h'.maxCapacity.trans h.maxCapacity
  source := h'.source.trans h.source

end SameFrame

/-- An index in the frame of a laid-out one is laid out by the nodes that it threads. -/
theorem Layout.of_sameFrame {ix ix' : Index G V} {ns ns' : List (Node V)} (h : ix.Layout ns)
    (h' : ix'.Threaded ns') (hframe : ix.SameFrame ix') : ix'.Layout ns' where
  toThreaded := h'
  capacity := by
    rw [hframe.capacity]
    exact h.capacity

end Index

theorem Index.Layout.pos_capacity {ix : Index G V} {ns : List (Node V)} (h : ix.Layout ns) :
    0 < ix.capacity :=
  Nat.pos_of_isPowerOfTwo h.capacity

end NameIndex
