import NameIndex.Index.Query
import NameIndex.Index.Remove
import NameIndex.Proofs.Relink

/-!
# Removing from a threaded index

A cookie that no node carries leaves the index as it is (`Threaded.remove_none`). The removal of a
node leads the levels on over its place, gives its back link to the node after it, and leaves an
index that threads one node less (`Threaded.remove_some`). Draining takes the nodes off the front
one by one and leaves an index of no node (`Threaded.drain_eq`). Neither touches what the nodes do
not determine (`SameFrame`), so an index that was laid out stays so.
-/

namespace NameIndex

variable {G V : Type} {pre post ns : List (Node V)} {n : Node V} {q : Cookie}

/-- Taking the first of the nodes after a place out of a table. -/
theorem CookieTable.Stores.take_node {t : CookieTable V} {others : List (Entry V)}
    (h : t.Stores (others ++ weave [] q (n :: post))) (hn : n.cookie ≠ .null)
    (hnodup : ((n :: post).map (·.cookie)).Nodup) (hothers : ∀ e ∈ others, e.cookie ≠ n.cookie) :
    ∃ t', t.take? n.cookie = some (n.linked q post, t') ∧ t'.capacity = t.capacity ∧
      t'.Stores (others ++ weave [] n.cookie post) := by
  rw [weave, List.append_nil] at h
  rw [List.map_cons, List.nodup_cons] at hnodup
  have hmem : n.linked q post ∈ others ++ n.linked q post :: weave [] n.cookie post := by simp
  have hrest : ∀ e ∈ weave [] n.cookie post, e.cookie ≠ n.cookie := fun e he hc =>
    hnodup.1 (List.mem_map.2 ⟨e.node, node_mem_of_mem_weave he, hc⟩)
  refine ⟨_, h.take?_eq hmem hn, CookieTable.capacity_setSlot .., (h.take hmem).congr fun e => ?_⟩
  rw [List.mem_filter, List.mem_append, List.mem_append, List.mem_cons, decide_eq_true_eq,
    Node.cookie_linked]
  constructor
  · rintro ⟨he | rfl | he, hc⟩
    · exact .inl he
    · exact absurd rfl hc
    · exact .inr he
  · rintro (he | he)
    · exact ⟨.inl he, hothers e he⟩
    · exact ⟨.inr (.inr he), hrest e he⟩

namespace Index

variable {ix : Index G V}

/-- The levels of a node lead to it. -/
theorem Threaded.checkPlaced_eq (h : ix.Threaded (pre ++ n :: post)) {p : Predecessors}
    (hp : ∀ level, p.before level = lastAt level .null pre) :
    ix.checkPlaced n.cookie p n.height = .ok () := by
  rw [checkPlaced, forM_eq_ok_iff]
  intro level hlevel
  rw [List.mem_range] at hlevel
  have hin := Nat.lt_of_lt_of_le hlevel h.height_bounds.2
  rw [hp level, h.successor_lastAt hin, firstAt_cons_of_lt hlevel]
  exact expect_pos rfl _

/-- The node after a removed one, or the tail, points back over its place. -/
theorem passBackLink_spec {others : List (Entry V)}
    (hstores : ix.table.Stores (others ++ weave [] n.cookie post))
    (htail : ix.tail = lastOf n.cookie post) (hheight : 1 ≤ n.height)
    (hpost : ∀ m ∈ post, m.cookie ≠ .null ∧ 1 ≤ m.height) (hnodup : (post.map (·.cookie)).Nodup)
    (hothers : ∀ e ∈ others, ∀ m ∈ post, e.cookie ≠ m.cookie) :
    ∃ table, ix.passBackLink n.cookie (n.linked q post) =
        .ok { ix with table, tail := lastOf q post } ∧
      table.capacity = ix.capacity ∧ table.Stores (others ++ weave [] q post) := by
  have hnext := n.links_linked_headD q post hheight
  cases post with
  | nil =>
    -- After the last node it is the tail that pointed back to it.
    refine ⟨ix.table, ?_, rfl, hstores⟩
    rw [passBackLink, hnext, firstAt, if_pos rfl, expect_pos (show ix.tail = n.cookie from htail)]
    rfl
  | cons m post =>
    obtain ⟨hm, hheight'⟩ := hpost m (by simp)
    have hget : ix.table.get? m.cookie = some (m.linked n.cookie post) := by
      refine hstores.get?_eq_some_iff.2 ⟨hm, ?_, rfl⟩
      rw [weave, List.append_nil]
      simp
    refine ⟨_, ?_, CookieTable.capacity_modify .., setPrev_spec hstores hm hnodup fun e he =>
      hothers e he m (by simp)⟩
    rw [passBackLink, hnext, firstAt_cons_of_lt (by omega), if_neg hm, resolve, hget, ok_bind,
      expect_pos (Node.prev_linked ..), show lastOf q (m :: post) = ix.tail by rw [htail]; rfl]
    rfl

/-- An index that differs from a threaded one by the lack of a node threads the others. -/
theorem Threaded.erase (h : ix.Threaded (pre ++ n :: post)) {ix' : Index G V}
    (hstores : ix'.table.Stores (weave [] .null (pre ++ post)))
    (hlen : ix'.heads.length = ix.heads.length)
    (hheads : ∀ level < ix'.heads.length, ix'.heads[level]? = some (firstAt level (pre ++ post)))
    (htail : ix'.tail = lastOf .null (pre ++ post)) (hcount : ix'.count + 1 = ix.count)
    (hlast : ix'.lastCookie = ix.lastCookie) : ix'.Threaded (pre ++ post) := by
  have hsub : (pre ++ post).Sublist (pre ++ n :: post) :=
    (List.sublist_cons_self n post).append_left pre
  exact {
    sorted := h.sorted.sublist hsub
    stores := hstores
    heads := hheads
    tail := htail
    count := by
      have hold := h.count
      rw [List.length_append, List.length_cons] at hold
      rw [List.length_append]
      omega
    levels := by rw [hlen]; exact h.levels
    heights := by rw [hlen]; exact fun m hm => h.heights m (hsub.subset hm)
    issued := by rw [hlast]; exact fun m hm => h.issued m (hsub.subset hm) }

/-- The removal of a cookie that no node carries does nothing. -/
theorem Threaded.remove_none (h : ix.Threaded ns) {c : Cookie} (hc : ∀ n ∈ ns, n.cookie ≠ c) :
    ix.remove c = .ok (none, ix) := by
  rw [remove, h.get?_eq_none_iff.2 hc]

/-- The search for the name of a node finds it under its cookie. -/
theorem Threaded.search_node (h : ix.Threaded (pre ++ n :: post)) :
    ∃ p, ix.search n.name n.cookie = .ok p ∧ p.found = true ∧
      ∀ level, p.before level = lastAt level .null pre := by
  have hwanted : ∀ m ∈ n :: post, m.name = n.name → m.cookie = n.cookie := by
    rw [List.forall_mem_cons]
    refine ⟨fun _ => rfl, fun m hm hname => ?_⟩
    exact absurd hname.symm (Name.ne_of_lt (h.name_lt_of_mem m hm))
  have hsearch := h.search_eq h.lt_name_of_mem h.not_lt_name (.inr hwanted)
  exact ⟨_, hsearch, named_iff.2 ⟨n, by simp, rfl⟩, h.before_eq _⟩

/-- Relinking the levels of a node that has left the table leads them on over its place. -/
theorem Threaded.relink_gone (h : ix.Threaded (pre ++ n :: post)) {table : CookieTable V}
    (hstores : table.Stores (weave (n :: post) .null pre ++ weave [] n.cookie post))
    {p : Predecessors} (hp : ∀ level, p.before level = lastAt level .null pre) {c : Cookie} :
    ∃ table' heads, ({ ix with table } : Index G V).relink p n.height
          (fun level => (n.linked c post).links.getD level .null) =
        { ix with table := table', heads } ∧
      table'.capacity = table.capacity ∧
      table'.Stores (weave post .null pre ++ weave [] n.cookie post) ∧
      heads.length = ix.heads.length ∧
      ∀ level < ix.heads.length, heads[level]? = some (firstAt level (pre ++ post)) := by
  obtain ⟨hpre_nodup, -, hne⟩ := h.cookies_append
  have hpost : ∀ e ∈ weave [] n.cookie post,
      e.cookie ≠ .null ∧ ∀ m ∈ pre, m.cookie ≠ e.cookie := by
    intro e he
    have hnode := List.mem_cons_of_mem n (node_mem_of_mem_weave he)
    exact ⟨h.ne_null (List.mem_append_right _ hnode), fun m hm => hne m hm e.node hnode⟩
  have hstores' : ({ ix with table } : Index G V).table.Stores
      (weave (n :: post) .null pre ++ weave [] n.cookie post) := hstores
  exact relink_spec hstores' h.heads (fun m hm => h.ne_null (List.mem_append_left _ hm)) hpre_nodup
    hpost hp n.height _ (fun level hlevel => n.links_linked_getD _ _ hlevel)
    fun level hlevel => by rw [firstAt, if_neg (by omega)]

/-- The removal of a node hands back its name and value and closes the gap. -/
theorem Threaded.remove_some (h : ix.Threaded (pre ++ n :: post)) :
    ∃ ix', ix.remove n.cookie = .ok (some n.unlinked, ix') ∧ ix'.Threaded (pre ++ post) ∧
      ix.SameFrame ix' := by
  have hheight := h.height_bounds
  obtain ⟨-, hnodup, hne⟩ := h.cookies_append
  obtain ⟨p, hsearch, hfound, hbefore⟩ := h.search_node
  -- It leaves the table,
  have hstores := h.stores
  rw [weave_append, List.append_nil] at hstores
  obtain ⟨table₁, htake, hcap₁, hstores₁⟩ := hstores.take_node h.cookie_ne_null hnodup
    fun e he => hne e.node (node_mem_of_mem_weave he) n (by simp)
  -- the levels go on over its place,
  obtain ⟨table₂, heads, hrelink, hcap₂, hstores₂, hlen, hheads⟩ := h.relink_gone hstores₁ hbefore
  -- and so do the back links.
  have hstores₂' : ({ ix with table := table₂, heads } : Index G V).table.Stores
      (weave post .null pre ++ weave [] n.cookie post) := hstores₂
  have htail : ix.tail = lastOf n.cookie post := by
    rw [h.tail, lastOf_append]
    rfl
  have hpost : ∀ m ∈ post, m.cookie ≠ .null ∧ 1 ≤ m.height := fun m hm =>
    ⟨h.ne_null (by simp [hm]), (h.heights m (by simp [hm])).1⟩
  rw [List.map_cons, List.nodup_cons] at hnodup
  obtain ⟨table₃, hback, hcap₃, hstores₃⟩ := passBackLink_spec (q := lastOf .null pre) hstores₂'
    htail hheight.1 hpost hnodup.2
    fun e he m hm => hne e.node (node_mem_of_mem_weave he) m (by simp [hm])
  have hcap : table₃.capacity = ix.capacity := hcap₃.trans (hcap₂.trans hcap₁)
  have hstores' : table₃.Stores (weave [] .null (pre ++ post)) := by
    rw [weave_append, List.append_nil]
    exact hstores₃
  obtain ⟨count, hcount⟩ : ∃ count, ix.count = count + 1 := by
    refine ⟨(pre ++ post).length, ?_⟩
    rw [h.count, List.length_append, List.length_append, List.length_cons]
    omega
  refine ⟨{ ix with table := table₃, heads, tail := lastOf (lastOf .null pre) post, count }, ?_, ?_,
    ⟨hcap, hlen, rfl, rfl, rfl⟩⟩
  · -- Every expectation on the way holds, in the order in which the removal has them.
    rw [remove, h.get?_cookie]
    dsimp only
    rw [Node.height_linked, Node.name_linked, expect_pos ⟨by omega, hheight.2⟩, ok_bind, hsearch,
      ok_bind, hfound, show expect true (.notLinked n.cookie) = .ok () from rfl, ok_bind,
      h.checkPlaced_eq hbefore, ok_bind, htake]
    dsimp only
    rw [Node.height_linked, hrelink, hback, ok_bind, countOff]
    dsimp only
    rw [hcount]
    rfl
  · rw [← hlen] at hheads
    exact h.erase hstores' hlen hheads (lastOf_append .null pre post).symm hcount.symm rfl

/-- The removal of a cookie answers with its name and value, if it has a node, and leaves the other
nodes in the same frame. -/
theorem Threaded.exists_remove (h : ix.Threaded ns) (c : Cookie) :
    ∃ ix', ix.remove c = .ok ((ix.get? c).map Entry.unlinked, ix') ∧
      ix'.Threaded (ns.filter fun n => n.cookie ≠ c) ∧ ix.SameFrame ix' := by
  rcases node_cases (fun n => n.cookie = c) ns with hnone | ⟨pre, n, post, rfl, rfl⟩
  · have hkept : (ns.filter fun n => n.cookie ≠ c) = ns :=
      List.filter_eq_self.2 fun n hn => decide_eq_true (hnone n hn)
    have hget : ix.get? c = none := h.get?_eq_none_iff.2 hnone
    refine ⟨ix, ?_, ?_, .refl ix⟩
    · rw [h.remove_none hnone, hget, Option.map_none]
    · rwa [hkept]
  · obtain ⟨ix', hremove, hrest, hframe⟩ := h.remove_some
    have hget : ix.get? n.cookie = some (n.linked (lastOf .null pre) post) := h.get?_cookie
    have hkept : ((pre ++ n :: post).filter fun m => m.cookie ≠ n.cookie) = pre ++ post := by
      have hothers : (pre ++ post).filter (fun m => m.cookie ≠ n.cookie) = pre ++ post :=
        List.filter_eq_self.2 fun m hm => decide_eq_true (h.cookie_ne m hm)
      rw [List.filter_append, List.filter_cons_of_neg (by simp), ← List.filter_append, hothers]
    refine ⟨ix', ?_, ?_, hframe⟩
    · rw [hremove, hget]
      rfl
    · rwa [hkept]

end Index

/-! ## Draining -/

/-- Taking the nodes of a table out along level 0. -/
theorem CookieTable.takeChain_eq {t : CookieTable V} (h : t.Stores (weave [] q ns))
    (hns : ∀ n ∈ ns, n.cookie ≠ .null ∧ 1 ≤ n.height) (hnodup : (ns.map (·.cookie)).Nodup)
    {slots : Nat} (hslots : ns.length ≤ slots) :
    ∃ t', t.takeChain slots (firstAt 0 ns) = .ok (ns.map fun n => n.unlinked, t') ∧
      t'.capacity = t.capacity ∧ t'.Stores [] := by
  -- By induction on the nodes: each step leaves the table of the nodes after the first one.
  induction ns generalizing t q slots with
  | nil =>
    refine ⟨t, ?_, rfl, h⟩
    rw [firstAt, takeChain.eq_def]
    exact if_pos rfl
  | cons n ns ih =>
    rw [List.forall_mem_cons] at hns
    have hfirst : t.Stores ([] ++ weave [] q (n :: ns)) := h
    obtain ⟨t₁, htake, hcap₁, h₁⟩ := hfirst.take_node hns.1.1 hnodup fun e he =>
      absurd he List.not_mem_nil
    rw [List.map_cons, List.nodup_cons] at hnodup
    obtain ⟨slots, rfl⟩ : ∃ k, slots = k + 1 := by
      rw [List.length_cons] at hslots
      exact ⟨slots - 1, by omega⟩
    obtain ⟨t₂, hchain, hcap₂, h₂⟩ := ih h₁ hns.2 hnodup.2 (Nat.le_of_succ_le_succ hslots)
    refine ⟨t₂, ?_, hcap₂.trans hcap₁, h₂⟩
    rw [firstAt_cons_of_lt (by omega), takeChain.eq_def]
    dsimp only
    rw [if_neg hns.1.1, htake]
    dsimp only
    rw [n.next_linked _ _ hns.1.2, ok_bind, hchain]
    rfl

namespace Index

variable {ix : Index G V}

/-- Draining hands back all names and values in name order and leaves no node in the same frame. -/
theorem Threaded.drain_eq (h : ix.Threaded ns) :
    ∃ ix', ix.drain = .ok (ns.map fun n => n.unlinked, ix') ∧ ix'.Threaded [] ∧
      ix.SameFrame ix' := by
  have hroom : ¬ ix.capacity < ix.count := by
    have := h.length_le_capacity
    rw [← h.count] at this
    omega
  obtain ⟨table, hchain, hcap, hstores⟩ := CookieTable.takeChain_eq h.stores
    (fun n hn => ⟨h.ne_null hn, (h.heights n hn).1⟩) h.cookies_nodup h.length_le_capacity
  have hlevels : (ix.heads.map fun _ => Cookie.null).length = ix.heads.length :=
    List.length_map _
  have hmost : (ix.heads.map fun _ => Cookie.null).length ≤ maxLevels := by
    rw [hlevels]
    exact h.levels
  refine ⟨{ ix with table, heads := ix.heads.map fun _ => .null, tail := .null, count := 0 }, ?_,
    threaded_nil hstores (by simp) rfl rfl hmost, hcap, hlevels, rfl, rfl, rfl⟩
  · rw [drain, if_neg hroom]
    dsimp only
    rw [h.front_eq, hchain, ok_bind]
    dsimp only
    have hcounted : (ns.map fun n => n.unlinked).length = ix.count := by
      rw [List.length_map, h.count]
    rw [expect_pos hcounted]
    rfl

/-- A laid-out index that has been drained is laid out by no node. -/
theorem Layout.drain_eq (h : ix.Layout ns) :
    ∃ ix', ix.drain = .ok (ns.map fun n => n.unlinked, ix') ∧ ix'.Layout [] ∧
      ix.SameFrame ix' := by
  obtain ⟨ix', hdrain, hnil, hframe⟩ := h.toThreaded.drain_eq
  exact ⟨ix', hdrain, h.of_sameFrame hnil hframe, hframe⟩

end Index

end NameIndex
