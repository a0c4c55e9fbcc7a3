import NameIndex.Proofs.Layout

/-!
# Well-formed indexes

`Consistent` says of an index that its parts agree: every stored entry is in the slot of its cookie,
names are distinct, every level passes exactly the entries that are tall enough for it in name
order, the back links lead through level 0 the other way, and the numbers are right. It is stated
from the index alone. `wellFormed_iff_exists_layout` shows that the well-formed indexes are those
that some list of nodes determines, which is the form in which the operations are followed.

The hard direction is the links. Each level passes a list of its own; two ascending lists of the
same entries are equal, so all of them are what the list of level 0 leaves when the lower entries
are filtered off, and the link of an entry at a level is the next of them.
-/

namespace NameIndex

variable {G V : Type}

/-- Following a level from a cookie visits the given entries and then comes to an end. -/
def Index.Visits (ix : Index G V) (level : Nat) : Cookie → List (Entry V) → Prop
  | c, [] => c = .null
  | c, e :: es => ix.table.get? c = some e ∧
      ∃ next, e.links[level]? = some next ∧ ix.Visits level next es

/-- Each entry points back to the one before it, the first one to `c`, and `last` is the cookie of
the last one, or `c` if there is none. -/
def LinkedBack : Cookie → List (Entry V) → Cookie → Prop
  | c, [], last => last = c
  | c, e :: es, last => e.prev = c ∧ LinkedBack e.cookie es last

/-- Every link of each entry leads to the next entry of its level. -/
def LinkedOn (es : List (Entry V)) : Prop :=
  ∀ as e bs, es = as ++ e :: bs → ∀ level < e.height,
    e.links[level]? = some (firstAt level (bs.map Entry.node))

/-- The parts of the index agree. -/
structure Index.Consistent (ix : Index G V) : Prop where
  /-- Every stored entry is in the slot of its cookie. -/
  placed : ∀ slot e, ix.table.entryAt slot = some e → slot = e.cookie.val % ix.capacity
  /-- The cookie of every stored entry has been given out. -/
  issued : ∀ e ∈ ix.table.live, 1 ≤ e.cookie.val ∧ e.cookie.val ≤ ix.lastCookie
  /-- The names of the stored entries are distinct. -/
  names : (ix.table.live.map Entry.name).Nodup
  /-- There are no more levels than an entry may have. -/
  levels : ix.heads.length ≤ maxLevels
  /-- Every stored entry has a level, and no more levels than the index. -/
  heights : ∀ e ∈ ix.table.live, 1 ≤ e.height ∧ e.height ≤ ix.heads.length
  /-- Every level visits exactly the entries that are tall enough for it, in name order. -/
  chains : ∀ level c, ix.heads[level]? = some c → ∃ es, ix.Visits level c es ∧
    (∀ e, e ∈ es ↔ e ∈ ix.table.live ∧ level < e.height) ∧
    es.Pairwise fun a b => a.name < b.name
  /-- The back links and the tail lead through level 0 the other way. -/
  backLinks : ∃ es, ix.Visits 0 ix.front es ∧ LinkedBack .null es ix.tail
  /-- The count is the number of stored entries. -/
  count : ix.count = ix.table.live.length

/-- The parts of the index agree, cookies are distinct, and the number of slots is one that the
table may have. -/
structure Index.WellFormed (ix : Index G V) : Prop extends ix.Consistent where
  /-- The number of slots is a power of two. -/
  capacity : ix.capacity.isPowerOfTwo
  /-- The cookies of the stored entries are distinct. -/
  cookies : (ix.table.live.map Entry.cookie).Nodup

/-! ## Visits -/

namespace Index

variable {ix : Index G V} {level : Nat}

/-- A level visits one list of entries from a cookie at most. -/
theorem Visits.unique {c : Cookie} {es es' : List (Entry V)} (h : ix.Visits level c es)
    (h' : ix.Visits level c es') : es = es' := by
  induction es generalizing c es' with
  | nil =>
    cases es' with
    | nil => rfl
    | cons e' es' =>
      rw [show c = .null from h] at h'
      simp [Visits] at h'
  | cons e es ih =>
    obtain ⟨he, next, hnext, h⟩ := h
    cases es' with
    | nil =>
      rw [show c = .null from h'] at he
      simp at he
    | cons e' es' =>
      obtain ⟨he', next', hnext', h'⟩ := h'
      rw [he, Option.some.injEq] at he'
      subst he'
      rw [hnext, Option.some.injEq] at hnext'
      subst hnext'
      rw [ih h h']

/-- Where a level visits the entries of a list that are tall enough for it, it starts at the first
of them, and the link of each of them leads to the next. -/
theorem Visits.links {c : Cookie} {es : List (Entry V)}
    (h : ix.Visits level c (es.filter fun e => level < e.height)) :
    c = firstAt level (es.map Entry.node) ∧ ∀ as e bs, es = as ++ e :: bs → level < e.height →
      e.links[level]? = some (firstAt level (bs.map Entry.node)) := by
  induction es generalizing c with
  | nil => exact ⟨h, fun as e bs heq => by simp at heq⟩
  | cons e es ih =>
    by_cases hlevel : level < e.height
    · -- The first entry is on the level, so its link leads where the rest starts.
      rw [List.filter_cons_of_pos (by simpa using hlevel)] at h
      obtain ⟨he, next, hnext, h⟩ := h
      obtain ⟨hfirst, hrest⟩ := ih h
      refine ⟨?_, fun as e' bs heq he' => ?_⟩
      · rw [List.map_cons, firstAt, if_pos (show level < e.node.height from hlevel)]
        exact (CookieTable.cookie_eq_of_get? he).symm
      · cases as with
        | nil =>
          obtain ⟨rfl, rfl⟩ := List.cons.inj heq
          rw [hnext, hfirst]
        | cons a as =>
          obtain ⟨rfl, rfl⟩ := List.cons.inj heq
          exact hrest as e' bs rfl he'
    · rw [List.filter_cons_of_neg (by simpa using hlevel)] at h
      obtain ⟨hfirst, hrest⟩ := ih h
      refine ⟨?_, fun as e' bs heq he' => ?_⟩
      · rw [List.map_cons, firstAt, if_neg (show ¬ level < e.node.height from hlevel)]
        exact hfirst
      · cases as with
        | nil =>
          obtain ⟨rfl, rfl⟩ := List.cons.inj heq
          exact absurd he' hlevel
        | cons a as =>
          obtain ⟨rfl, rfl⟩ := List.cons.inj heq
          exact hrest as e' bs rfl he'

end Index

theorem LinkedOn.tail {e : Entry V} {es : List (Entry V)} (h : LinkedOn (e :: es)) :
    LinkedOn es := by
  rintro as e' bs rfl
  exact h (e :: as) e' bs rfl

/-- Entries that are linked back and on are the weave of their nodes. -/
theorem LinkedBack.weave_eq {c last : Cookie} {es : List (Entry V)} (h : LinkedBack c es last)
    (hlinks : LinkedOn es) :
    weave [] c (es.map Entry.node) = es ∧ last = lastOf c (es.map Entry.node) := by
  induction es generalizing c with
  | nil => exact ⟨rfl, h⟩
  | cons e es ih =>
    obtain ⟨hprev, h⟩ := h
    obtain ⟨hweave, hlast⟩ := ih h hlinks.tail
    have hhead : e.node.linked c (es.map Entry.node) = e :=
      Entry.linked_node_eq_iff.2 ⟨hprev, hlinks [] e es rfl⟩
    refine ⟨?_, hlast⟩
    rw [List.map_cons, weave, List.append_nil, hhead]
    exact congrArg (e :: ·) hweave

/-- One more entry that points back to the last one. -/
theorem LinkedBack.concat {c last : Cookie} {es : List (Entry V)} (h : LinkedBack c es last)
    {e : Entry V} (hprev : e.prev = last) : LinkedBack c (es ++ [e]) e.cookie := by
  induction es generalizing c with
  | nil =>
    rw [show last = c from h] at hprev
    exact ⟨hprev, rfl⟩
  | cons e' es ih => exact ⟨h.1, ih h.2⟩

/-- A weave is linked back. -/
theorem linkedBack_weave (rest : List (Node V)) (c : Cookie) (ns : List (Node V)) :
    LinkedBack c (weave rest c ns) (lastOf c ns) := by
  induction ns generalizing c with
  | nil => rfl
  | cons n ns ih => exact ⟨rfl, ih n.cookie⟩

/-- Two lists that ascend by name and have the same members are equal. -/
theorem eq_of_ascending {α : Type} (name : α → Name) {as bs : List α}
    (has : as.Pairwise fun a b => name a < name b) (hbs : bs.Pairwise fun a b => name a < name b)
    (hmem : ∀ a, a ∈ as ↔ a ∈ bs) : as = bs := by
  have hnodup : ∀ {l : List α}, (l.Pairwise fun a b => name a < name b) → l.Nodup :=
    fun hl => hl.imp fun hlt heq => Name.ne_of_lt hlt (congrArg name heq)
  have hperm := (List.perm_ext_iff_of_nodup (hnodup has) (hnodup hbs)).2 hmem
  exact hperm.eq_of_pairwise (fun a b _ _ hab hba => absurd hba (List.lt_asymm hab)) has hbs

namespace Index

variable {ix : Index G V} {ns pre post : List (Node V)}

/-- A laid-out index visits, from a place on, the entries there that are tall enough. -/
theorem Layout.visits (h : ix.Layout (pre ++ post)) (level : Nat) :
    ix.Visits level (firstAt level post)
      ((weave [] (lastOf .null pre) post).filter fun e => level < e.height) := by
  induction post generalizing pre with
  | nil => rfl
  | cons n post ih =>
    have hlayout : ix.Layout (pre ++ [n] ++ post) := by rwa [List.append_assoc]
    have hrest := ih hlayout
    rw [lastOf_append] at hrest
    rw [weave]
    by_cases hlevel : level < n.height
    · rw [List.filter_cons_of_pos (by simpa using hlevel), firstAt_cons_of_lt hlevel]
      refine ⟨?_, firstAt level post, ?_, hrest⟩
      · rw [h.get?_cookie, List.append_nil]
      · rw [Node.links_linked_getElem?, if_pos hlevel, List.append_nil]
    · rw [List.filter_cons_of_neg (by simpa using hlevel), firstAt, if_neg hlevel]
      exact hrest

/-- A level of a laid-out index visits the entries that are tall enough. -/
theorem Layout.visits_level (h : ix.Layout ns) (level : Nat) :
    ix.Visits level (firstAt level ns)
      ((weave [] .null ns).filter fun e => level < e.height) :=
  (show ix.Layout ([] ++ ns) from h).visits level

/-- Level 0 of a laid-out index visits every entry. -/
theorem Layout.visits_zero (h : ix.Layout ns) : ix.Visits 0 ix.front (weave [] .null ns) := by
  have hvisits := h.visits_level 0
  have hall : (weave [] .null ns).filter (fun e => 0 < e.height) = weave [] .null ns := by
    rw [List.filter_eq_self]
    intro e he
    have := (h.heights _ (node_mem_of_mem_weave he)).1
    exact decide_eq_true this
  rw [h.front_eq, ← hall]
  exact hvisits

/-- A laid-out index is well-formed. -/
theorem Layout.wellFormed (h : ix.Layout ns) : ix.WellFormed where
  capacity := h.capacity
  placed := fun slot e he => ((h.stores slot e).1 he).2.symm
  issued := fun e he => h.issued _ (node_mem_of_mem_weave (h.stores.mem_live_iff.1 he))
  cookies := h.cookies_perm.nodup_iff.2 h.cookies_nodup
  names := h.names_perm.nodup_iff.2 h.names_nodup
  levels := h.levels
  heights := fun e he => h.heights _ (node_mem_of_mem_weave (h.stores.mem_live_iff.1 he))
  chains := by
    intro level c hc
    rw [h.heads level (List.getElem?_eq_some_iff.1 hc).1, Option.some.injEq] at hc
    subst hc
    refine ⟨_, h.visits_level level, fun e => ?_, ?_⟩
    · rw [List.mem_filter, h.stores.mem_live_iff, decide_eq_true_eq]
    · exact h.weave_sorted.filter _
  backLinks := ⟨_, h.visits_zero, by rw [h.tail]; exact linkedBack_weave [] .null ns⟩
  count := by rw [h.count, h.length_live]

/-- Level 0 of an index whose parts agree visits all its entries, in name order and linked back. -/
theorem Consistent.exists_visits (h : ix.Consistent) :
    ∃ es, ix.Visits 0 ix.front es ∧ LinkedBack .null es ix.tail ∧
      (∀ e, e ∈ es ↔ e ∈ ix.table.live) ∧ es.Pairwise fun a b => a.name < b.name := by
  obtain ⟨es, hvisits, hback⟩ := h.backLinks
  refine ⟨es, hvisits, hback, ?_⟩
  rw [Index.front, List.headD_eq_head?_getD, List.head?_eq_getElem?] at hvisits
  cases hhead : ix.heads[0]? with
  | none =>
    -- Without levels no entry can be stored, for it would have to have one.
    rw [hhead] at hvisits
    have hnil : es = [] := hvisits.unique rfl
    have hlive : ∀ e, e ∉ ix.table.live := fun e he => by
      have := h.heights e he
      rw [List.getElem?_eq_none_iff] at hhead
      omega
    rw [hnil]
    exact ⟨fun e => ⟨fun he => absurd he List.not_mem_nil, fun he => absurd he (hlive e)⟩, .nil⟩
  | some c =>
    rw [hhead, Option.getD_some] at hvisits
    obtain ⟨es', hvisits', hmem, hsorted⟩ := h.chains 0 c hhead
    rw [hvisits.unique hvisits']
    refine ⟨fun e => ?_, hsorted⟩
    rw [hmem]
    exact ⟨fun he => he.1, fun he => ⟨he, (h.heights e he).1⟩⟩

/-- A list of all entries is what the table stores, each being in the slot of its cookie. -/
theorem Consistent.stores (h : ix.Consistent) {es : List (Entry V)}
    (hmem : ∀ e, e ∈ es ↔ e ∈ ix.table.live) : ix.table.Stores es := by
  have hfiled : ix.table.Filed := fun slot e he => (h.placed slot e he).symm
  exact hfiled.stores.congr fun e => (hmem e).symm

/-- Every level visits what is left of the entries of level 0 when the lower ones are filtered
off. -/
theorem Consistent.visits_filter (h : ix.Consistent) {es : List (Entry V)}
    (hmem : ∀ e, e ∈ es ↔ e ∈ ix.table.live) (hsorted : es.Pairwise fun a b => a.name < b.name)
    {level : Nat} {c : Cookie} (hc : ix.heads[level]? = some c) :
    ix.Visits level c (es.filter fun e => level < e.height) := by
  obtain ⟨es', hvisits, hmem', hsorted'⟩ := h.chains level c hc
  have heq : (es.filter fun e => level < e.height) = es' :=
    eq_of_ascending Entry.name (hsorted.filter _) hsorted' fun e => by
      rw [List.mem_filter, hmem', hmem, decide_eq_true_eq]
  rw [heq]
  exact hvisits

/-- The entries of level 0 are linked on, as each level visits those of them that it passes. -/
theorem Consistent.linkedOn (h : ix.Consistent) {es : List (Entry V)}
    (hmem : ∀ e, e ∈ es ↔ e ∈ ix.table.live) (hsorted : es.Pairwise fun a b => a.name < b.name) :
    LinkedOn es := by
  intro as e bs heq level hlt
  have he : e ∈ ix.table.live := by
    rw [← hmem, heq]
    simp
  have hin : level < ix.heads.length := Nat.lt_of_lt_of_le hlt (h.heights e he).2
  have hlevel := h.visits_filter hmem hsorted (List.getElem?_eq_getElem hin)
  exact hlevel.links.2 as e bs heq hlt

/-- An index whose parts agree is laid out by its entries in name order. -/
theorem Consistent.exists_layout (h : ix.Consistent) (hcap : ix.capacity.isPowerOfTwo) :
    ∃ ns, ix.Layout ns := by
  obtain ⟨es, hvisits, hback, hmem, hsorted⟩ := h.exists_visits
  obtain ⟨hweave, htail⟩ := hback.weave_eq (h.linkedOn hmem hsorted)
  have hstores := h.stores hmem
  have hlive := hstores.live_perm (hsorted.imp fun hlt heq =>
    Name.ne_of_lt hlt (congrArg Entry.name heq))
  refine ⟨es.map Entry.node, ⟨?_, by rwa [hweave], ?_, htail, ?_, h.levels, ?_, ?_⟩, hcap⟩
  · rw [List.pairwise_map]
    exact hsorted
  · intro level hin
    have hhead := List.getElem?_eq_getElem hin
    rw [hhead, (h.visits_filter hmem hsorted hhead).links.1]
  · rw [h.count, hlive.length_eq, List.length_map]
  · rw [List.forall_mem_map]
    exact fun e he => h.heights e ((hmem e).1 he)
  · rw [List.forall_mem_map]
    exact fun e he => h.issued e ((hmem e).1 he)

/-- The well-formed indexes are those that a list of nodes lays out. -/
theorem wellFormed_iff_exists_layout : ix.WellFormed ↔ ∃ ns, ix.Layout ns :=
  ⟨fun h => h.exists_layout h.capacity, fun ⟨_, h⟩ => h.wellFormed⟩

end Index

end NameIndex
