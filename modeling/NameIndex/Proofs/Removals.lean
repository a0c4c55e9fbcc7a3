import NameIndex.Proofs.Canonical
import NameIndex.Proofs.Remove
import NameIndex.Proofs.Scan

/-!
# Removals in any order

A removal takes one node out of those that determine an index and leaves alone what they do not
determine (`SameFrame`). The index that is left by several removals is therefore the one of the
remaining nodes, whatever the order (`Threaded.exists_removeEach`), and it is the same in every
field, since nodes and frame determine an index (`Threaded.eq_of_sameFrame`). Draining leaves the
index of no nodes in the same frame, as the removal of all cookies does
(`Threaded.drain_of_removed`).
-/

namespace NameIndex

variable {G V : Type}

namespace Index

/-- Removes the entries of cookies one after another. -/
def removeEach (ix : Index G V) :
    List Cookie → Except Fault (List (Option (Entry V)) × Index G V)
  | [] => .ok ([], ix)
  | c :: cs => do
    let (e, ix) ← ix.remove c
    let (es, ix) ← ix.removeEach cs
    .ok (e :: es, ix)

variable {ix ix' : Index G V} {ns : List (Node V)} {c : Cookie} {cs : List Cookie}

/-- The name and value of a cookie are those of its node. -/
theorem map_unlinked_get? (ix : Index G V) (c : Cookie) :
    (ix.get? c).map Entry.unlinked = ((ix.get? c).map Entry.node).map fun n => n.unlinked := by
  rw [Option.map_map]
  rfl

namespace Threaded

/-- An index is determined by its nodes and its frame. -/
theorem eq_of_sameFrame (h : ix.Threaded ns) (h' : ix'.Threaded ns) (hframe : ix.SameFrame ix') :
    ix' = ix := by
  have htable : ix'.table = ix.table := h'.stores.eq_of_capacity h.stores hframe.capacity
  have hheads : ix'.heads = ix.heads := by
    rw [h'.heads_eq, h.heads_eq, hframe.levels]
  have htail : ix'.tail = ix.tail := h'.tail.trans h.tail.symm
  have hcount : ix'.count = ix.count := h'.count.trans h.count.symm
  exact Index.ext htable hheads htail hframe.lastCookie hcount hframe.maxCapacity hframe.source

/-- A cookie leads to the entry of the node that has it. -/
theorem map_node_get?_eq_some_iff (h : ix.Threaded ns) {n : Node V} :
    (ix.get? c).map Entry.node = some n ↔ n ∈ ns ∧ n.cookie = c := by
  constructor
  · intro hget
    obtain ⟨e, he, rfl⟩ := Option.map_eq_some_iff.1 hget
    obtain ⟨pre, n, post, rfl, rfl, rfl⟩ := h.get?_eq_some_iff.1 he
    rw [Node.node_linked]
    exact ⟨by simp, rfl⟩
  · rintro ⟨hn, rfl⟩
    obtain ⟨pre, post, rfl⟩ := List.append_of_mem hn
    rw [get?, h.get?_cookie, Option.map_some, Node.node_linked]

/-- The name and value under the cookie of a node are its own. -/
theorem unlinked_get? (h : ix.Threaded ns) {n : Node V} (hn : n ∈ ns) :
    (ix.get? n.cookie).map Entry.unlinked = some n.unlinked := by
  rw [map_unlinked_get?, h.map_node_get?_eq_some_iff.2 ⟨hn, rfl⟩, Option.map_some]

/-- The nodes of distinct cookies are all nodes, if every node has one of these cookies. -/
theorem nodes_perm (h : ix.Threaded ns) (hdistinct : cs.Nodup) (hall : ∀ n ∈ ns, n.cookie ∈ cs) :
    (cs.filterMap fun c => (ix.get? c).map Entry.node).Perm ns := by
  have hnodup : (cs.filterMap fun c => (ix.get? c).map Entry.node).Nodup := by
    refine hdistinct.filterMap fun c c' n hn hn' => ?_
    rw [← (h.map_node_get?_eq_some_iff.1 hn).2, (h.map_node_get?_eq_some_iff.1 hn').2]
  refine (List.perm_ext_iff_of_nodup hnodup h.nodup).2 fun n => ?_
  rw [List.mem_filterMap]
  constructor
  · rintro ⟨c, -, hn⟩
    exact (h.map_node_get?_eq_some_iff.1 hn).1
  · intro hn
    exact ⟨n.cookie, hall n hn, h.map_node_get?_eq_some_iff.2 ⟨hn, rfl⟩⟩

/-- Where the node of one cookie is gone, another cookie has its name and value as before. -/
theorem get?_of_filter (h : ix.Threaded ns) (h' : ix'.Threaded (ns.filter fun n => n.cookie ≠ c))
    {d : Cookie} (hne : d ≠ c) :
    (ix'.get? d).map Entry.unlinked = (ix.get? d).map Entry.unlinked := by
  have hnode : (ix'.get? d).map Entry.node = (ix.get? d).map Entry.node := by
    refine Option.ext fun n => ?_
    rw [h'.map_node_get?_eq_some_iff, h.map_node_get?_eq_some_iff, List.mem_filter,
      decide_eq_true_eq]
    constructor
    · rintro ⟨⟨hn, -⟩, rfl⟩
      exact ⟨hn, rfl⟩
    · rintro ⟨hn, rfl⟩
      exact ⟨⟨hn, hne⟩, rfl⟩
  rw [map_unlinked_get?, map_unlinked_get?, hnode]

/-- Removals of distinct cookies answer with their names and values, as far as they have nodes, and
leave the other nodes in the same frame. -/
theorem exists_removeEach (h : ix.Threaded ns) (hdistinct : cs.Nodup) :
    ∃ ix', ix.removeEach cs = .ok (cs.map fun c => (ix.get? c).map Entry.unlinked, ix') ∧
      ix'.Threaded (ns.filter fun n => n.cookie ∉ cs) ∧ ix.SameFrame ix' := by
  -- By induction on the cookies; the first removal does not touch what the others answer.
  induction cs generalizing ix ns with
  | nil =>
    have hkept : (ns.filter fun n => n.cookie ∉ []) = ns := by simp
    exact ⟨ix, rfl, by rwa [hkept], .refl ix⟩
  | cons c cs ih =>
    rw [List.nodup_cons] at hdistinct
    obtain ⟨ix₁, hremove, h₁, hframe₁⟩ := h.exists_remove c
    obtain ⟨ix₂, hrest, h₂, hframe₂⟩ := ih h₁ hdistinct.2
    have hanswers : (cs.map fun d => (ix₁.get? d).map Entry.unlinked) =
        cs.map fun d => (ix.get? d).map Entry.unlinked := by
      refine List.map_congr_left fun d hd => h.get?_of_filter h₁ ?_
      rintro rfl
      exact hdistinct.1 hd
    have hkept : ((ns.filter fun n => n.cookie ≠ c).filter fun n => n.cookie ∉ cs) =
        ns.filter fun n => n.cookie ∉ c :: cs := by
      rw [List.filter_filter]
      refine List.filter_congr fun n _ => ?_
      rw [← Bool.decide_and]
      simp only [List.mem_cons, not_or, and_comm]
    refine ⟨ix₂, ?_, ?_, hframe₁.trans hframe₂⟩
    · rw [removeEach, hremove, ok_bind]
      dsimp only
      rw [hrest, ok_bind, hanswers]
      rfl
    · rwa [← hkept]

/-- Removals in another order leave the same nodes, so they leave the same index. -/
theorem removeEach_of_perm (h : ix.Threaded ns) (hdistinct : cs.Nodup)
    (h' : ix'.Threaded (ns.filter fun n => n.cookie ∉ cs)) (hframe : ix.SameFrame ix')
    {cs' : List Cookie} (hperm : cs'.Perm cs) :
    ix.removeEach cs' = .ok (cs'.map fun c => (ix.get? c).map Entry.unlinked, ix') := by
  obtain ⟨ix'', hremove, h'', hframe'⟩ := h.exists_removeEach (hperm.nodup_iff.2 hdistinct)
  have hrest : (ns.filter fun n => n.cookie ∉ cs') = ns.filter fun n => n.cookie ∉ cs :=
    List.filter_congr fun n _ => by simp only [hperm.mem_iff]
  rw [hrest] at h''
  rw [hremove, h'.eq_of_sameFrame h'' (hframe.symm.trans hframe')]

/-- Draining leaves the index that is left when no node is, and hands back in name order what the
removals hand back. -/
theorem drain_of_removed (h : ix.Threaded ns) (hdistinct : cs.Nodup)
    (hall : ∀ n ∈ ns, n.cookie ∈ cs) (h' : ix'.Threaded []) (hframe : ix.SameFrame ix') :
    ∃ es, ix.drain = .ok (es, ix') ∧ (es.Pairwise fun a b => a.name < b.name) ∧
      es.Perm (cs.filterMap fun c => (ix.get? c).map Entry.unlinked) := by
  obtain ⟨ix'', hdrain, h'', hframe'⟩ := h.drain_eq
  have hsame : ix'' = ix' := h'.eq_of_sameFrame h'' (hframe.symm.trans hframe')
  have hanswers : (cs.filterMap fun c => (ix.get? c).map Entry.unlinked) =
      (cs.filterMap fun c => (ix.get? c).map Entry.node).map fun n => n.unlinked := by
    rw [List.map_filterMap]
    exact List.filterMap_congr fun c _ => map_unlinked_get? ix c
  refine ⟨ns.map fun n => n.unlinked, ?_, ?_, ?_⟩
  · rw [hdrain, hsame]
  · rw [List.pairwise_map]
    exact h.sorted
  · rw [hanswers]
    exact (h.nodes_perm hdistinct hall).symm.map _

end Threaded

/-- Removing distinct cookies answers with the name and value of the entry of each, and leaves the
same index in whatever order they are removed. If they are the cookies of all entries, draining
leaves that index too, and hands back the same names and values in name order. -/
theorem removals_commute {n : Nat} (hcheck : ix.check = .ok n) (hdistinct : cs.Nodup) :
    (∀ e ∈ ix.table.live, ix.get? e.cookie = some e) ∧
      ∃ ix', (∀ cs', cs'.Perm cs →
          ix.removeEach cs' = .ok (cs'.map fun c => (ix.get? c).map Entry.unlinked, ix')) ∧
        ((∀ e ∈ ix.table.live, e.cookie ∈ cs) →
          ∃ es, ix.drain = .ok (es, ix') ∧ (es.Pairwise fun a b => a.name < b.name) ∧
            es.Perm (cs.filterMap fun c => (ix.get? c).map Entry.unlinked)) := by
  obtain ⟨ns, h⟩ := exists_threaded_of_check hcheck
  have hfound : ∀ e ∈ ix.table.live, ix.get? e.cookie = some e := by
    intro e he
    obtain ⟨slot, hat⟩ := CookieTable.mem_live_iff.1 he
    exact h.get?_of_entryAt hat
  obtain ⟨ix', -, h', hframe⟩ := h.exists_removeEach hdistinct
  refine ⟨hfound, ix', fun cs' hperm => h.removeEach_of_perm hdistinct h' hframe hperm,
    fun hall => ?_⟩
  have hnodes : ∀ n ∈ ns, n.cookie ∈ cs := by
    intro n hn
    obtain ⟨e, he, rfl⟩ := exists_mem_weave hn
    exact hall e (h.stores.mem_live_iff.2 he)
  have hnone : (ns.filter fun n => n.cookie ∉ cs) = [] :=
    List.filter_eq_nil_iff.2 fun n hn hnot => of_decide_eq_true hnot (hnodes n hn)
  rw [hnone] at h'
  exact h.drain_of_removed hdistinct hnodes h' hframe

/-- The three entries are removed from the first on and from the last on, and drained. -/
theorem removals_commute_trio :
    trio.check = .ok 3 ∧ ∃ ix es es' ds, trio.removeEach [⟨1⟩, ⟨2⟩, ⟨3⟩] = .ok (es, ix) ∧
      trio.removeEach [⟨3⟩, ⟨2⟩, ⟨1⟩] = .ok (es', ix) ∧ es' = es.reverse ∧
      trio.drain = .ok (ds, ix) := by
  have hcheck : trio.check = .ok 3 := by rfl
  have hdistinct : ([⟨1⟩, ⟨2⟩, ⟨3⟩] : List Cookie).Nodup := by decide
  obtain ⟨-, ix, hremove, hdrain⟩ := removals_commute hcheck hdistinct
  obtain ⟨ds, hds, -, -⟩ := hdrain (by decide)
  exact ⟨hcheck, ix, _, _, ds, hremove _ (List.Perm.refl _), hremove _ (by decide), rfl, hds⟩

end Index

end NameIndex
