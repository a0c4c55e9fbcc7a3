import NameIndex.Index.Query
import NameIndex.Proofs.Allocate
import NameIndex.Proofs.Relink

/-!
# Enrolling in a laid-out index

An enrolment in a laid-out index has one of three outcomes. The name is enrolled already, and
nothing but the level draws changes (`Layout.enroll_duplicate`); or no slot is left, and a cookie is
lost as well (`Layout.enroll_full`); or the index is laid out afterwards with one more node, in its
place in name order, under a cookie that was never given out before (`Layout.enroll_fresh`). Only a
new name asks for room and for a cookie; without the means for it the enrolment stops
(`Layout.enroll_eq_error`).
-/

namespace NameIndex

variable {G V : Type}

namespace Index

variable {ix : Index G V} {pre post : List (Node V)}

/-- A free slot stays free in a table of the same size that stores the same nodes, however they are
linked. -/
theorem Layout.isFree_of_stores (h : ix.Layout (pre ++ post)) {c : Cookie}
    (hfree : ix.table.isFree c = true) {table : CookieTable V} (hcap : table.capacity = ix.capacity)
    {rest : List (Node V)} {q : Cookie}
    (hstores : table.Stores (weave rest .null pre ++ weave [] q post)) :
    table.isFree c = true := by
  rw [hstores.isFree_iff]
  intro e he hslot
  have hnode : e.node ∈ pre ++ post := by
    rcases List.mem_append.1 he with he | he
    · exact List.mem_append_left _ (node_mem_of_mem_weave he)
    · exact List.mem_append_right _ (node_mem_of_mem_weave he)
  rw [CookieTable.slotOf, CookieTable.slotOf, hcap] at hslot
  exact h.isFree_iff.1 hfree _ (List.mem_map_of_mem hnode) hslot

/-- Nodes that are linked around a new one are, once the table stores that too, those of the new
list. -/
theorem stores_insert {table : CookieTable V} {x : Node V}
    (hstores : table.Stores (weave (x :: post) .null pre ++ weave [] x.cookie post))
    (hfree : table.isFree x.cookie = true) (hcap : 0 < table.capacity) :
    (table.setSlot (table.slotOf x.cookie) (some (x.linked (lastOf .null pre) post))).Stores
      (weave [] .null (pre ++ x :: post)) := by
  have hplace := hstores.place (e := x.linked (lastOf .null pre) post) hfree hcap
  refine hplace.congr fun e => ?_
  rw [weave_append, weave, List.append_nil, List.append_nil]
  simp only [List.mem_cons, List.mem_append]
  tauto

/-- The links that a new node takes over from the holders before its place. -/
theorem Layout.successors_eq (h : ix.Layout (pre ++ post)) {p : Predecessors}
    (hp : ∀ level, p.before level = lastAt level .null pre) {height : Nat}
    (hheight : height ≤ ix.heads.length) :
    ix.successors p height = .ok ((List.range height).map fun level => firstAt level post) := by
  refine mapM_eq_ok fun level hlevel => ?_
  rw [hp level]
  exact h.successor_lastAt (Nat.lt_of_lt_of_le (List.mem_range.1 hlevel) hheight)

/-- A new back link, or tail, after a place; what was there points back over the place. -/
theorem insertBackLink_spec {others : List (Entry V)} {q c : Cookie}
    (hstores : ix.table.Stores (others ++ weave [] q post)) (htail : ix.tail = lastOf q post)
    (hpost : ∀ n ∈ post, n.cookie ≠ .null ∧ 1 ≤ n.height) (hnodup : (post.map (·.cookie)).Nodup)
    (hothers : ∀ e ∈ others, ∀ n ∈ post, e.cookie ≠ n.cookie) :
    ∃ table, ix.insertBackLink c (firstAt 0 post) =
        .ok (q, { ix with table, tail := lastOf c post }) ∧
      table.capacity = ix.capacity ∧ table.Stores (others ++ weave [] c post) := by
  cases post with
  | nil =>
    -- Behind the last place it is the tail that points back.
    refine ⟨ix.table, ?_, rfl, hstores⟩
    rw [insertBackLink, firstAt, if_pos rfl, htail]
    rfl
  | cons n post =>
    obtain ⟨hn, hheight⟩ := hpost n (by simp)
    have hget : ix.table.get? n.cookie = some (n.linked q post) := by
      refine hstores.get?_eq_some_iff.2 ⟨hn, ?_, rfl⟩
      rw [weave, List.append_nil]
      simp
    refine ⟨_, ?_, CookieTable.capacity_modify .., setPrev_spec hstores hn hnodup fun e he =>
      hothers e he n (by simp)⟩
    rw [insertBackLink, firstAt_cons_of_lt (by omega), if_neg hn, resolve, hget, ok_bind,
      Node.prev_linked, show lastOf c (n :: post) = ix.tail by rw [htail]; rfl]
    rfl

/-- An index that differs from a laid-out one by a node in its place is laid out with that node. -/
theorem Layout.insert (h : ix.Layout (pre ++ post)) {x : Node V} {ix' : Index G V}
    (hpre : ∀ n ∈ pre, n.name < x.name) (hpost : ∀ n ∈ post, x.name < n.name)
    (hheight : 1 ≤ x.height) (hlevels : x.height ≤ maxLevels)
    (hissued : 1 ≤ x.cookie.val ∧ x.cookie.val ≤ ix.lastCookie) (hcap : ix'.capacity = ix.capacity)
    (hstores : ix'.table.Stores (weave [] .null (pre ++ x :: post)))
    (hlen : ix'.heads.length = max ix.heads.length x.height)
    (hheads : ∀ level < ix'.heads.length,
      ix'.heads[level]? = some (firstAt level (pre ++ x :: post)))
    (htail : ix'.tail = lastOf .null (pre ++ x :: post)) (hcount : ix'.count = ix.count + 1)
    (hlast : ix'.lastCookie = ix.lastCookie) : ix'.Layout (pre ++ x :: post) where
  capacity := by
    rw [hcap]
    exact h.capacity
  sorted := by
    obtain ⟨hpre_sorted, hpost_sorted, hbetween⟩ := List.pairwise_append.1 h.sorted
    rw [List.pairwise_append, List.pairwise_cons]
    refine ⟨hpre_sorted, ⟨hpost, hpost_sorted⟩, fun m hm n hn => ?_⟩
    rcases List.mem_cons.1 hn with rfl | hn
    · exact hpre m hm
    · exact hbetween m hm n hn
  stores := hstores
  heads := hheads
  tail := htail
  count := by
    rw [hcount, h.count, List.length_append, List.length_append, List.length_cons]
    omega
  levels := by
    have := h.levels
    omega
  heights := by
    rw [hlen]
    rw [List.forall_mem_append, List.forall_mem_cons]
    have hold : ∀ n ∈ pre ++ post, 1 ≤ n.height ∧ n.height ≤ max ix.heads.length x.height :=
      fun n hn => by
        have := h.heights n hn
        omega
    rw [List.forall_mem_append] at hold
    exact ⟨hold.1, ⟨hheight, by omega⟩, hold.2⟩
  issued := by
    have hold := h.issued
    rw [← hlast] at hold hissued
    rw [List.forall_mem_append] at hold
    rw [List.forall_mem_append, List.forall_mem_cons]
    exact ⟨hold.1, hissued, hold.2⟩

/-- Relinking the levels below the height of a new node leads them to it, and on from it as they
went on before. -/
theorem Layout.relink_new (h : ix.Layout (pre ++ post)) {x : Node V} {p : Predecessors}
    (hp : ∀ level, p.before level = lastAt level .null pre) :
    ∃ table heads, (ix.relink p x.height fun _ => x.cookie) = { ix with table, heads } ∧
      table.capacity = ix.capacity ∧
      table.Stores (weave (x :: post) .null pre ++ weave [] (lastOf .null pre) post) ∧
      heads.length = ix.heads.length ∧
      ∀ level < ix.heads.length, heads[level]? = some (firstAt level (pre ++ x :: post)) := by
  obtain ⟨hpre_nodup, -, hne⟩ := h.cookies_append
  have hstores := h.stores
  rw [weave_append, List.append_nil] at hstores
  have hpost : ∀ e ∈ weave [] (lastOf .null pre) post,
      e.cookie ≠ .null ∧ ∀ n ∈ pre, n.cookie ≠ e.cookie := by
    intro e he
    have hnode := node_mem_of_mem_weave he
    exact ⟨h.ne_null (List.mem_append_right _ hnode), fun n hn => hne n hn e.node hnode⟩
  -- Below its height the levels enter at the new node; above, they do not see it.
  have hentered : ∀ level < x.height, x.cookie = firstAt level (x :: post) := fun level hlevel =>
    (firstAt_cons_of_lt hlevel).symm
  have hsame : ∀ level, x.height ≤ level → firstAt level post = firstAt level (x :: post) := by
    intro level hlevel
    rw [firstAt, if_neg (by omega)]
  exact relink_spec hstores h.heads (fun n hn => h.ne_null (List.mem_append_left _ hn)) hpre_nodup
    hpost hp x.height (fun _ => x.cookie) hentered hsame

/-- The links around a new node: the levels below its height, which may be new ones, lead to it, and
the node after it points back to it. -/
theorem Layout.link_new (h : ix.Layout (pre ++ post)) {x : Node V} {p : Predecessors}
    (hp : ∀ level, p.before level = lastAt level .null pre) (hlevels : x.height ≤ maxLevels) :
    ∃ table heads,
      ((ix.raise x.height).relink p x.height fun _ => x.cookie).insertBackLink x.cookie
          (firstAt 0 post) =
        .ok (lastOf .null pre, { ix with table, heads, tail := lastOf x.cookie post }) ∧
      table.capacity = ix.capacity ∧
      table.Stores (weave (x :: post) .null pre ++ weave [] x.cookie post) ∧
      heads.length = max ix.heads.length x.height ∧
      ∀ level < heads.length, heads[level]? = some (firstAt level (pre ++ x :: post)) := by
  obtain ⟨-, hnodup, hne⟩ := h.cookies_append
  obtain ⟨table₁, heads, hrelink, hcap₁, hstores₁, hlen, hheads⟩ :=
    (h.raise hlevels).relink_new (x := x) hp
  generalize ((ix.raise x.height).relink p x.height fun _ => x.cookie) = ix₁ at hrelink
  have htail₁ : ix₁.tail = lastOf (lastOf .null pre) post := by
    rw [hrelink, ← lastOf_append]
    exact h.tail
  have hstores₁' : ix₁.table.Stores
      (weave (x :: post) .null pre ++ weave [] (lastOf .null pre) post) := by
    rw [hrelink]
    exact hstores₁
  have hpost : ∀ n ∈ post, n.cookie ≠ .null ∧ 1 ≤ n.height := fun n hn =>
    ⟨h.ne_null (List.mem_append_right _ hn), (h.heights n (List.mem_append_right _ hn)).1⟩
  obtain ⟨table₂, hback, hcap₂, hstores₂⟩ := insertBackLink_spec (c := x.cookie) hstores₁' htail₁
    hpost hnodup fun e he n hn => hne e.node (node_mem_of_mem_weave he) n hn
  refine ⟨table₂, heads, ?_, ?_, hstores₂, ?_, ?_⟩
  · rw [hback, hrelink]
    rfl
  · rw [hcap₂, hrelink]
    exact hcap₁
  · rw [hlen, length_heads_raise]
  · rw [hlen]
    exact hheads

/-- Splicing an entry into a laid-out index lays it out with one more node. -/
theorem Layout.splice_eq (h : ix.Layout (pre ++ post)) {e : Entry V} {c : Cookie} {height : Nat}
    (hpre : ∀ n ∈ pre, n.name < e.name) (hpost : ∀ n ∈ post, e.name < n.name) {p : Predecessors}
    (hp : ∀ level, p.before level = lastAt level .null pre) (hheight : 1 ≤ height)
    (hlevels : height ≤ maxLevels) (hfree : ix.table.isFree c = true) (hc : 1 ≤ c.val)
    (hlast : c.val ≤ ix.lastCookie) :
    ∃ table heads tail,
      ix.splice e c height p = .ok { ix with table, heads, tail, count := ix.count + 1 } ∧
      table.capacity = ix.capacity ∧ heads.length = max ix.heads.length height ∧
      ({ ix with table, heads, tail, count := ix.count + 1 } : Index G V).Layout
        (pre ++ e.nodeUnder c height :: post) := by
  generalize hx : e.nodeUnder c height = x
  obtain rfl : c = x.cookie := by rw [← hx, Entry.cookie_nodeUnder]
  obtain rfl : height = x.height := by rw [← hx, Entry.height_nodeUnder]
  have hxn : x.name = e.name := by rw [← hx, Entry.name_nodeUnder]
  have hraised : x.height ≤ (ix.raise x.height).heads.length := by
    rw [length_heads_raise]
    exact Nat.le_max_right _ _
  have hlinks := (h.raise hlevels).successors_eq hp hraised
  obtain ⟨table, heads, hback, hcap, hstores, hlen, hheads⟩ := h.link_new hp hlevels
  -- The slot is still free, as no entry has come to another slot.
  have hpos : 0 < table.capacity := by
    rw [hcap]
    exact h.pos_capacity
  have hfree' := h.isFree_of_stores hfree hcap hstores
  have hplace := stores_insert hstores hfree' hpos
  have hcap' : (table.setSlot (table.slotOf x.cookie)
      (some (x.linked (lastOf .null pre) post))).capacity = ix.capacity := by
    rw [CookieTable.capacity_setSlot, hcap]
  refine ⟨_, heads, lastOf x.cookie post, ?_, hcap', hlen, ?_⟩
  · have hhead : ((List.range x.height).map fun level => firstAt level post).headD .null =
        firstAt 0 post := x.links_linked_headD (lastOf .null pre) post hheight
    have hentry : ({ e with
        cookie := x.cookie
        links := (List.range x.height).map fun level => firstAt level post
        prev := lastOf .null pre } : Entry V) = x.linked (lastOf .null pre) post := by
      rw [← hx]
      rfl
    rw [splice, hlinks, ok_bind, hhead]
    dsimp only
    rw [hback, ok_bind]
    dsimp only
    rw [hentry, CookieTable.place?, Node.cookie_linked, if_pos hfree']
  · rw [← hxn] at hpre hpost
    have htail : lastOf x.cookie post = lastOf .null (pre ++ x :: post) := by
      rw [lastOf_append, lastOf]
    exact h.insert hpre hpost hheight hlevels ⟨hc, hlast⟩ hcap' hplace hlen hheads htail rfl rfl

/-! ## The outcomes -/

variable {ns : List (Node V)} {e : Entry V}

/-- Drawing a height does not touch the entries. -/
theorem Layout.withSource (h : ix.Layout ns) (source : G) :
    ({ ix with source } : Index G V).Layout ns :=
  { h with }

/-- Nor do cookies that are spent on no entry. -/
theorem Layout.withLast (h : ix.Layout ns) {last : Nat} (hlast : ix.lastCookie ≤ last)
    (source : G) : ({ ix with lastCookie := last, source } : Index G V).Layout ns :=
  { h with issued := fun n hn => ⟨(h.issued n hn).1, (h.issued n hn).2.trans hlast⟩ }

/-- What a new name asks for has nothing to do with the heights. -/
theorem hasMeans_withSource (ix : Index G V) (source : G) :
    ({ ix with source } : Index G V).HasMeans ↔ ix.HasMeans :=
  ⟨fun h => ⟨h.table, h.cookie⟩, fun h => ⟨h.table, h.cookie⟩⟩

/-- The index has stored an entry with a height under a cookie. -/
def Stored (ix : Index G V) (e : Entry V) (c : Cookie) (height : Nat) : Prop :=
  ∃ held, ix.get? c = some held ∧ held.unlinked = e.unlinked ∧ held.cookie = c ∧
    held.height = height

/-- An index that is laid out with a node for an entry has stored the entry. -/
theorem Layout.stored {pre post : List (Node V)} {c : Cookie} {height : Nat}
    (h : ix.Layout (pre ++ e.nodeUnder c height :: post)) : ix.Stored e c height := by
  exact ⟨_, h.get?_cookie, rfl, rfl, Node.height_linked ..⟩

variable [LevelSource G]

/-- An enrolment draws a height and searches for the name before it looks for a cookie. -/
theorem enroll_eq (he : e.isLinked = false) {p : Predecessors}
    (hsearch : ({ ix with source := (LevelSource.drawHeight ix.source).2 } : Index G V).search
      e.name .null = .ok p) :
    ix.enroll e =
      if p.found then
        .ok (.error ⟨.duplicateKey, e⟩, { ix with source := (LevelSource.drawHeight ix.source).2 })
      else do
        match ← ({ ix with
            source := (LevelSource.drawHeight ix.source).2 } : Index G V).allocate with
        | (.error reason, ix) => return (.error ⟨reason, e⟩, ix)
        | (.ok c, ix') =>
          return (.ok c, ← ix'.splice e c (LevelSource.drawHeight ix.source).1 p) := by
  rcases hdraw : LevelSource.drawHeight ix.source with ⟨height, source⟩
  rw [hdraw] at hsearch
  rw [enroll, he, hdraw]
  dsimp only
  rw [hsearch]
  rfl

/-- An entry whose name is enrolled is refused, at the price of its draws. -/
theorem Layout.enroll_duplicate (h : ix.Layout ns) (he : e.isLinked = false)
    (hname : named e.name ns = true) :
    ix.enroll e = .ok (.error ⟨.duplicateKey, e⟩,
      { ix with source := (LevelSource.drawHeight ix.source).2 }) := by
  obtain ⟨_, _, p, -, -, -, hsearch, hfound, -⟩ := (h.withSource
    (LevelSource.drawHeight ix.source).2).exists_search e.name (.inl rfl)
  rw [hname] at hfound
  rw [enroll_eq he hsearch, if_pos hfound]

/-- The enrolment of a new name finds its place, and goes on to look for a cookie. -/
theorem Layout.enroll_new (h : ix.Layout ns) (he : e.isLinked = false)
    (hname : named e.name ns = false) :
    ∃ pre post p, ns = pre ++ post ∧ (∀ n ∈ pre, n.name < e.name) ∧
      (∀ n ∈ post, e.name < n.name) ∧ (∀ level, p.before level = lastAt level .null pre) ∧
      ix.enroll e = do
        match ← ({ ix with
            source := (LevelSource.drawHeight ix.source).2 } : Index G V).allocate with
        | (.error reason, ix) => return (.error ⟨reason, e⟩, ix)
        | (.ok c, ix') =>
          return (.ok c, ← ix'.splice e c (LevelSource.drawHeight ix.source).1 p) := by
  have hdrawn := h.withSource (LevelSource.drawHeight ix.source).2
  obtain ⟨pre, post, p, rfl, hpre, hpost, hsearch, hfound, hbefore⟩ :=
    hdrawn.exists_search e.name (.inl rfl)
  have habsent : ¬ p.found = true := by
    rw [hfound, hname]
    decide
  refine ⟨pre, post, p, rfl, hpre, lt_name_of_not_named hname hpost, hbefore, ?_⟩
  rw [enroll_eq he hsearch, if_neg habsent]

/-- An entry is refused when every slot is occupied and the table may not grow, at the price of its
draws and of a cookie. -/
theorem Layout.enroll_full (h : ix.Layout ns) (he : e.isLinked = false)
    (hname : named e.name ns = false) (hmeans : ix.HasMeans)
    (hfull : ix.grownCapacity ≤ ix.count) :
    ix.enroll e = .ok (.error ⟨.cookieCollision ⟨ix.lastCookie + 1⟩
        (ix.table.slotOf ⟨ix.lastCookie + 1⟩), e⟩,
      { ix with
        lastCookie := ix.lastCookie + 1
        source := (LevelSource.drawHeight ix.source).2 }) := by
  obtain ⟨_, _, p, -, -, -, -, henroll⟩ := h.enroll_new he hname
  have hdrawn := h.withSource (LevelSource.drawHeight ix.source).2
  rw [henroll, hdrawn.allocate_full ((hasMeans_withSource ix _).2 hmeans) hfull]
  rfl

/-- An enrolment of a new name stops if the index has not got the means for it. -/
theorem Layout.enroll_eq_error (h : ix.Layout ns) (he : e.isLinked = false)
    (hname : named e.name ns = false) (hmeans : ¬ ix.HasMeans) :
    ix.enroll e = .error ix.shortage := by
  obtain ⟨_, _, p, -, -, -, -, henroll⟩ := h.enroll_new he hname
  have hdrawn := h.withSource (LevelSource.drawHeight ix.source).2
  rw [henroll, hdrawn.allocate_eq_error ((hasMeans_withSource ix _).not.2 hmeans), error_bind]
  rfl

/-- An entry of a new name is enrolled when there is a slot, or there may be one. It takes its place
in name order under the least cookie never given out whose slot is free in the grown table. -/
theorem Layout.enroll_fresh (h : ix.Layout ns) (he : e.isLinked = false)
    (hname : named e.name ns = false) (hmeans : ix.HasMeans)
    (hroom : ix.count < ix.grownCapacity) :
    ∃ pre post c ix', ns = pre ++ post ∧ (∀ n ∈ pre, n.name < e.name) ∧
      (∀ n ∈ post, e.name < n.name) ∧ ix.enroll e = .ok (.ok c, ix') ∧
      ix'.Layout (pre ++ e.nodeUnder c (LevelSource.drawHeight ix.source).1 :: post) ∧
      FirstFree (ns.map (·.cookie)) ix.grownCapacity ix.lastCookie c ∧ ix'.lastCookie = c.val ∧
      ix'.capacity = ix.grownCapacity ∧
      ix'.heads.length = max ix.heads.length (LevelSource.drawHeight ix.source).1 ∧
      ix'.maxCapacity = ix.maxCapacity ∧ ix'.source = (LevelSource.drawHeight ix.source).2 := by
  obtain ⟨pre, post, p, rfl, hpre, hpost, hbefore, henroll⟩ := h.enroll_new he hname
  have hdrawn := h.withSource (LevelSource.drawHeight ix.source).2
  obtain ⟨c, table, hallocate, hcap, hlayout, hfree, hfirst⟩ :=
    hdrawn.allocate_free ((hasMeans_withSource ix _).2 hmeans) hroom
  obtain ⟨table', heads, tail, hsplice, hcap', hheads, hlayout'⟩ := hlayout.splice_eq hpre hpost
    hbefore (LevelSource.one_le_drawHeight ix.source) (LevelSource.drawHeight_le ix.source) hfree
    (Nat.lt_of_le_of_lt (Nat.zero_le _) hfirst.after) (Nat.le_refl _)
  refine ⟨pre, post, c, _, rfl, hpre, hpost, ?_, hlayout', hfirst, rfl, hcap'.trans hcap, hheads,
    rfl, rfl⟩
  rw [henroll, hallocate, ok_bind]
  dsimp only
  rw [hsplice]
  rfl

end Index

end NameIndex
