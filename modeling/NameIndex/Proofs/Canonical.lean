import NameIndex.Index.Query
import NameIndex.Proofs.Check

/-!
# The links are canonical

An index that passes its check has only one way to link its entries. Its heads, its tail, its count
and the links of every entry are functions of the cookies, names and heights of the entries and of
the number of levels: the nodes without their values give them (`Threaded.heads_eq`,
`Threaded.get?_bare`), and these nodes are the entries that the index holds, in name order
(`Threaded.bare_eq`). So among indexes that differ in nothing but their links, one at most passes.
-/

namespace NameIndex

variable {G V : Type}

/-- A node without its value. -/
def Node.bare (n : Node V) : Node Unit :=
  { name := n.name, value := (), cookie := n.cookie, height := n.height }

/-- An entry without its value. -/
def Entry.bare (e : Entry V) : Entry Unit :=
  { name := e.name, value := (), cookie := e.cookie, links := e.links, prev := e.prev }

/-! ## Forgetting the values -/

theorem firstAt_map_bare (level : Nat) (ns : List (Node V)) :
    firstAt level (ns.map Node.bare) = firstAt level ns :=
  firstAt_map (r := id) (f := fun n : Node V => n.bare) rfl (fun _ => rfl) (fun _ => rfl) level ns

theorem lastOf_map_bare (c : Cookie) (ns : List (Node V)) :
    lastOf c (ns.map Node.bare) = lastOf c ns :=
  lastOf_map (r := id) (f := fun n : Node V => n.bare) (fun _ => rfl) c ns

theorem Node.bare_linked (n : Node V) (c : Cookie) (ns : List (Node V)) :
    (n.linked c ns).bare = n.bare.linked c (ns.map Node.bare) := by
  simp only [Node.linked, firstAt_map_bare]
  rfl

/-- Links do not depend on values. -/
theorem map_bare_weave (rest : List (Node V)) (c : Cookie) (ns : List (Node V)) :
    (weave rest c ns).map Entry.bare = weave (rest.map Node.bare) c (ns.map Node.bare) :=
  map_weave_linked (r := id) (f := fun n : Node V => n.bare) (fun _ => rfl) Node.bare_linked
    rest c ns

/-- An entry is determined by its node and its links. -/
theorem Entry.eq_of_node {e e' : Entry V} (hnode : e.node = e'.node) (hlinks : e.links = e'.links)
    (hprev : e.prev = e'.prev) : e = e' := by
  have hrecord : e.record = e'.record := congrArg Node.toRecord hnode
  obtain ⟨hname, hvalue, hcookie⟩ := Record.mk.inj hrecord
  calc e = ⟨e.name, e.value, e.cookie, e.links, e.prev⟩ := rfl
    _ = ⟨e'.name, e'.value, e'.cookie, e'.links, e'.prev⟩ := by
      rw [hname, hvalue, hcookie, hlinks, hprev]
    _ = e' := rfl

namespace Index

variable {G' V' : Type} {ix : Index G V} {ix' : Index G' V'} {ns : List (Node V)}
  {ns' : List (Node V')} {c : Cookie} {name : Name} {height : Nat}

/-- Whether the index holds an entry of some cookie, name and height. -/
def Holds (ix : Index G V) (c : Cookie) (name : Name) (height : Nat) : Prop :=
  ∃ e ∈ ix.table.live, e.cookie = c ∧ e.name = name ∧ e.height = height

/-- The indexes link their entries in the same way. -/
structure SameLinks (ix : Index G V) (ix' : Index G' V') : Prop where
  /-- They have the same heads. -/
  heads : ix.heads = ix'.heads
  /-- They have the same tail. -/
  tail : ix.tail = ix'.tail
  /-- They count the same number of entries. -/
  count : ix.count = ix'.count
  /-- The entries of a cookie have the same links. -/
  links : ∀ c, (ix.get? c).map Entry.links = (ix'.get? c).map Entry.links
  /-- The entries of a cookie point back to the same one. -/
  prev : ∀ c, (ix.get? c).map Entry.prev = (ix'.get? c).map Entry.prev

/-! ## What the nodes determine -/

namespace Threaded

/-- An index holds its nodes. -/
theorem holds_iff (h : ix.Threaded ns) :
    ix.Holds c name height ↔ (⟨⟨name, (), c⟩, height⟩ : Node Unit) ∈ ns.map Node.bare := by
  have hbare : (weave [] .null ns).map (fun e => e.node.bare) = ns.map Node.bare :=
    map_weave (fun e => e.node.bare) Node.bare (fun _ => rfl) [] .null ns
  rw [Holds, ← hbare, List.mem_map]
  constructor
  · rintro ⟨e, he, rfl, rfl, rfl⟩
    exact ⟨e, h.stores.mem_live_iff.1 he, rfl⟩
  · rintro ⟨e, he, hnode⟩
    cases hnode
    exact ⟨e, h.stores.mem_live_iff.2 he, rfl, rfl, rfl⟩

/-- Indexes that hold the same have the same nodes, but for their values. -/
theorem bare_eq (h : ix.Threaded ns) (h' : ix'.Threaded ns')
    (hholds : ∀ c name height, ix.Holds c name height ↔ ix'.Holds c name height) :
    ns.map Node.bare = ns'.map Node.bare := by
  refine eq_of_ascending (fun n => n.name) ?_ ?_ fun n => ?_
  · rw [List.pairwise_map]
    exact h.sorted
  · rw [List.pairwise_map]
    exact h'.sorted
  · exact h.holds_iff.symm.trans ((hholds n.cookie n.name n.height).trans h'.holds_iff)

/-- The heads are where the levels enter the nodes. -/
theorem heads_eq (h : ix.Threaded ns) :
    ix.heads = (List.range ix.heads.length).map fun level => firstAt level ns := by
  apply List.ext_getElem?
  intro level
  rw [List.getElem?_map]
  rcases Nat.lt_or_ge level ix.heads.length with hlt | hge
  · rw [h.heads level hlt, List.getElem?_range hlt, Option.map_some]
  · have hrange : (List.range ix.heads.length)[level]? = none := by
      rw [List.getElem?_eq_none_iff, List.length_range]
      exact hge
    rw [List.getElem?_eq_none hge, hrange, Option.map_none]

/-- A look-up finds the entry of a cookie among those of the nodes. -/
theorem get?_eq_find? (h : ix.Threaded ns) (c : Cookie) :
    ix.get? c = (weave [] .null ns).find? fun e => e.cookie = c := by
  rw [get?]
  rcases node_cases (fun n => n.cookie = c) ns with hnone | ⟨pre, n, post, rfl, rfl⟩
  · rw [h.get?_eq_none_iff.2 hnone]
    exact (find?_weave_of_forall_not hnone).symm
  · have hpre : ∀ m ∈ pre, m.cookie ≠ n.cookie := fun m hm =>
      h.cookie_ne m (List.mem_append_left _ hm)
    have hfound : (weave [] .null (pre ++ n :: post)).find? (fun e => e.cookie = n.cookie) =
        some (n.linked (lastOf .null pre) (post ++ [])) :=
      find?_weave_append_cons (p := fun m => m.cookie = n.cookie) hpre rfl
    rw [h.get?_cookie, hfound, List.append_nil]

/-- But for its value, the entry of a cookie is given by the nodes without values. -/
theorem get?_bare (h : ix.Threaded ns) (c : Cookie) :
    (ix.get? c).map Entry.bare =
      (weave [] .null (ns.map Node.bare)).find? fun e => e.cookie = c := by
  have hbare := map_bare_weave [] .null ns
  rw [List.map_nil] at hbare
  rw [h.get?_eq_find?, ← hbare, List.find?_map]
  rfl

/-- Indexes of as many levels that have the same nodes, but for their values, link them in the same
way. -/
theorem sameLinks (h : ix.Threaded ns) (h' : ix'.Threaded ns')
    (hns : ns.map Node.bare = ns'.map Node.bare) (hlevels : ix.heads.length = ix'.heads.length) :
    ix.SameLinks ix' := by
  have hget : ∀ c, (ix.get? c).map Entry.bare = (ix'.get? c).map Entry.bare := fun c => by
    rw [h.get?_bare, h'.get?_bare, hns]
  refine ⟨?_, ?_, ?_, fun c => ?_, fun c => ?_⟩
  · have hfirst : ∀ level, firstAt level ns = firstAt level ns' := fun level => by
      rw [← firstAt_map_bare, hns, firstAt_map_bare]
    rw [h.heads_eq, h'.heads_eq, hlevels]
    exact List.map_congr_left fun level _ => hfirst level
  · rw [h.tail, h'.tail, ← lastOf_map_bare, hns, lastOf_map_bare]
  · rw [h.count, h'.count, ← List.length_map Node.bare, hns, List.length_map]
  · have hlinks := congrArg (Option.map Entry.links) (hget c)
    rwa [Option.map_map, Option.map_map] at hlinks
  · have hprev := congrArg (Option.map Entry.prev) (hget c)
    rwa [Option.map_map, Option.map_map] at hprev

/-- A stored entry is found under its cookie. -/
theorem get?_of_entryAt (h : ix.Threaded ns) {slot : Nat} {e : Entry V}
    (hat : ix.table.entryAt slot = some e) : ix.get? e.cookie = some e := by
  obtain ⟨he, -⟩ := (h.stores slot e).1 hat
  exact h.stores.get?_cookie he (h.ne_null (node_mem_of_mem_weave he))

end Threaded

/-! ## Indexes that differ in their links -/

/-- The indexes differ in nothing but their links, which are the heads of as many levels, the tail,
the count, and the links and back links of the entries. -/
structure SameEntries (ix ix' : Index G V) : Prop where
  /-- There are as many slots. -/
  capacity : ix.capacity = ix'.capacity
  /-- Each slot holds an entry of the same name, value, cookie and height, or none. -/
  entries : ∀ slot, (ix.table.entryAt slot).map Entry.node = (ix'.table.entryAt slot).map Entry.node
  /-- There are as many levels. -/
  levels : ix.heads.length = ix'.heads.length
  /-- The same cookies have been given out. -/
  lastCookie : ix.lastCookie = ix'.lastCookie
  /-- The table may grow to as many slots. -/
  maxCapacity : ix.maxCapacity = ix'.maxCapacity
  /-- The draws go on in the same way. -/
  source : ix.source = ix'.source

theorem holds_iff_entryAt :
    ix.Holds c name height ↔ ∃ slot v,
      (ix.table.entryAt slot).map Entry.node = some ⟨⟨name, v, c⟩, height⟩ := by
  constructor
  · rintro ⟨e, he, rfl, rfl, rfl⟩
    obtain ⟨slot, hat⟩ := CookieTable.mem_live_iff.1 he
    exact ⟨slot, e.value, by rw [hat]; rfl⟩
  · rintro ⟨slot, v, hat⟩
    obtain ⟨e, he, hnode⟩ := Option.map_eq_some_iff.1 hat
    cases hnode
    exact ⟨e, CookieTable.mem_live_iff.2 ⟨slot, he⟩, rfl, rfl, rfl⟩

namespace SameEntries

variable {ix ix' : Index G V} {ns ns' : List (Node V)}

theorem holds_iff (h : ix.SameEntries ix') (c : Cookie) (name : Name) (height : Nat) :
    ix.Holds c name height ↔ ix'.Holds c name height := by
  simp only [holds_iff_entryAt, h.entries]

/-- Threaded indexes that differ in nothing but their links have the same tables if they link their
entries in the same way. -/
theorem table_eq (h : ix.SameEntries ix') (hthreaded : ix.Threaded ns)
    (hthreaded' : ix'.Threaded ns') (hlinks : ix.SameLinks ix') : ix.table = ix'.table := by
  refine CookieTable.eq_of_entryAt h.capacity fun slot => ?_
  have hnode := h.entries slot
  cases hat : ix.table.entryAt slot with
  | none =>
    rw [hat, Option.map_none, eq_comm, Option.map_eq_none_iff] at hnode
    exact hnode.symm
  | some e =>
    -- The slot holds an entry of the same cookie in both, by which its links are found.
    rw [hat, Option.map_some, eq_comm, Option.map_eq_some_iff] at hnode
    obtain ⟨e', hat', hnode⟩ := hnode
    have hget : ix.get? e.cookie = some e := hthreaded.get?_of_entryAt hat
    have hget' : ix'.get? e.cookie = some e' := by
      rw [← show e'.cookie = e.cookie from congrArg (fun n => n.cookie) hnode]
      exact hthreaded'.get?_of_entryAt hat'
    have hsame := hlinks.links e.cookie
    have hsame' := hlinks.prev e.cookie
    rw [hget, hget'] at hsame hsame'
    rw [hat', Entry.eq_of_node hnode.symm (Option.some.inj hsame) (Option.some.inj hsame')]

/-- Threaded indexes that differ in nothing but their links are the same if they link their entries
in the same way. -/
theorem eq_of_sameLinks (h : ix.SameEntries ix') (hthreaded : ix.Threaded ns)
    (hthreaded' : ix'.Threaded ns') (hlinks : ix.SameLinks ix') : ix' = ix := by
  have htable := h.table_eq hthreaded hthreaded' hlinks
  exact (Index.ext htable hlinks.heads hlinks.tail h.lastCookie hlinks.count h.maxCapacity
    h.source).symm

end SameEntries

/-- The links of an index that passes its check are those of every index that passes, holds entries
of the same cookies, names and heights and has as many levels. No index that differs from it in
nothing but its links passes: its check stops with a contradiction. -/
theorem links_canonical {ix : Index G V} {n : Nat} (hcheck : ix.check = .ok n) :
    (∀ (G' V' : Type) (ix' : Index G' V') (n' : Nat), ix'.check = .ok n' →
        (∀ c name height, ix.Holds c name height ↔ ix'.Holds c name height) →
        ix.heads.length = ix'.heads.length → ix.SameLinks ix') ∧
      ∀ ix' : Index G V, ix.SameEntries ix' → ix' ≠ ix →
        ∃ what, ix'.check = .error (.corrupt what) := by
  obtain ⟨ns, h⟩ := exists_threaded_of_check hcheck
  refine ⟨fun G' V' ix' n' hcheck' hholds hlevels => ?_, fun ix' hsame hne => ?_⟩
  · obtain ⟨ns', h'⟩ := exists_threaded_of_check hcheck'
    exact h.sameLinks h' (h.bare_eq h' hholds) hlevels
  · refine (check_sound ix').exists_corrupt fun n' hcheck' => hne ?_
    obtain ⟨ns', h'⟩ := exists_threaded_of_check hcheck'
    exact hsame.eq_of_sameLinks h h' (h.sameLinks h' (h.bare_eq h' hsame.holds_iff) hsame.levels)

/-- The one entry has the same links in a larger table, and an index that has lost sight of it
altogether does not pass. -/
theorem links_canonical_lone :
    (lone ()).SameLinks (⟨⟨#[none, some ⟨[97], (), ⟨1⟩, [.null], .null⟩, none, none], by decide⟩,
        [⟨1⟩], ⟨1⟩, 3, 1, 4, ()⟩ : Index Unit Unit) ∧
      ∃ what, ({ lone () with heads := [.null], tail := .null, count := 0 } :
        Index Unit Nat).check = .error (.corrupt what) := by
  have hcheck : (lone ()).check = .ok 1 := by rfl
  obtain ⟨hcanonical, htampered⟩ := links_canonical hcheck
  refine ⟨hcanonical Unit Unit _ 1 (by rfl) (fun c name height => ?_) rfl,
    htampered _ ⟨rfl, fun _ => rfl, rfl, rfl, rfl, rfl⟩ fun h => ?_⟩
  · simp [Holds, lone, CookieTable.live, Entry.height]
  · exact absurd (congrArg count h) (by decide)

end Index

end NameIndex
