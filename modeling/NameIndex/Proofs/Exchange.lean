import NameIndex.Proofs.Admission
import NameIndex.Proofs.Grant
import NameIndex.Proofs.Removals

/-!
# Enrolling one entry and removing another

The enrolment of an entry and the removal of another can change places. In either order the height
drawn is the same, and the entries that are left stand in the same order. Only the cookie of the new
entry goes by which slots are occupied when it is looked for, and so does the size of the table. The
nodes after both operations are therefore the same but for one cookie, and as the nodes determine
every link, so are the indexes (`Layout.sameBut`). The index needs room for the entry, and the means
for it before the removal and after it: as the table may be smaller then, neither implies the other.
-/

namespace NameIndex

variable {G V : Type} {c c' d : Cookie}

/-! ## One cookie in the place of another -/

/-- The cookie, or `c'` if it is `c`. -/
def Cookie.replace (d c c' : Cookie) : Cookie := if d = c then c' else d

/-- The node, with `c'` in the place of `c`. -/
def Node.replace (n : Node V) (c c' : Cookie) : Node V :=
  { n with cookie := n.cookie.replace c c' }

/-- The entry, with `c'` wherever it has `c`. -/
def Entry.replace (e : Entry V) (c c' : Cookie) : Entry V :=
  { e with
    cookie := e.cookie.replace c c'
    links := e.links.map fun d => d.replace c c'
    prev := e.prev.replace c c' }

/-- What the entry is apart from its cookie and its links. -/
def Entry.shape (e : Entry V) : Name × V × Nat := (e.name, e.value, e.height)

theorem Cookie.replace_self (c c' : Cookie) : c.replace c c' = c' := if_pos rfl

theorem Cookie.replace_of_ne (h : d ≠ c) (c' : Cookie) : d.replace c c' = d := if_neg h

@[simp] theorem Entry.height_replace (e : Entry V) (c c' : Cookie) :
    (e.replace c c').height = e.height :=
  List.length_map _

@[simp] theorem Entry.shape_replace (e : Entry V) (c c' : Cookie) :
    (e.replace c c').shape = e.shape := by
  rw [shape, shape, height_replace]
  rfl

/-- Nodes that do not have the cookie stay as they are. -/
theorem map_replace_of_ne {ns : List (Node V)} (h : ∀ n ∈ ns, n.cookie ≠ c) (c' : Cookie) :
    (ns.map fun n => n.replace c c') = ns := by
  conv_rhs => rw [← List.map_id ns]
  refine List.map_congr_left fun n hn => ?_
  rw [Node.replace, Cookie.replace_of_ne (h n hn)]
  rfl

theorem firstAt_map_replace (hc : c ≠ .null) (c' : Cookie) (level : Nat) (ns : List (Node V)) :
    firstAt level (ns.map fun n => n.replace c c') = (firstAt level ns).replace c c' :=
  firstAt_map (r := fun d => d.replace c c') (f := fun n : Node V => n.replace c c')
    (Cookie.replace_of_ne hc.symm c') (fun _ => rfl) (fun _ => rfl) level ns

theorem Node.replace_linked (hc : c ≠ .null) (c' : Cookie) (n : Node V) (q : Cookie)
    (ns : List (Node V)) :
    (n.linked q ns).replace c c' =
      (n.replace c c').linked (q.replace c c') (ns.map fun n => n.replace c c') := by
  simp only [Node.linked, firstAt_map_replace hc, Entry.replace, List.map_map]
  rfl

/-- A cookie that is replaced in all nodes is replaced in all links. -/
theorem map_replace_weave (hc : c ≠ .null) (c' : Cookie) (ns : List (Node V)) :
    (weave [] .null ns).map (fun e => e.replace c c') =
      weave [] .null (ns.map fun n => n.replace c c') := by
  have hweave : (weave [] .null ns).map (fun e => e.replace c c') =
      weave [] (Cookie.null.replace c c') (ns.map fun n => n.replace c c') :=
    map_weave_linked (r := fun d => d.replace c c') (f := fun n : Node V => n.replace c c')
      (fun _ => rfl) (Node.replace_linked hc c') [] .null ns
  rwa [Cookie.replace_of_ne hc.symm] at hweave

namespace Index

variable {ix ix' : Index G V} {ns : List (Node V)} {e : Entry V} {n : Node V}

/-- The indexes differ in nothing but one cookie, which is `c` in the first and `c'` in the second,
in the last cookie given out and in the number of slots. -/
structure SameBut (ix ix' : Index G V) (c c' : Cookie) : Prop where
  /-- In name order they have the same entries, linked in the same way. -/
  entries : ix'.inOrder = ix.inOrder.map fun e => e.replace c c'
  /-- Each level visits the same entries. -/
  visits : ∀ level d, ix.heads[level]? = some d → ∃ es, ix.Visits level d es ∧
    ix'.Visits level (d.replace c c') (es.map fun e => e.replace c c')
  /-- The levels start at the same entries. -/
  heads : ix'.heads = ix.heads.map fun d => d.replace c c'
  /-- The tail is the same. -/
  tail : ix'.tail = ix.tail.replace c c'
  /-- There are as many entries. -/
  count : ix'.count = ix.count
  /-- The table may grow to as many slots. -/
  maxCapacity : ix'.maxCapacity = ix.maxCapacity
  /-- The draws go on in the same way. -/
  source : ix'.source = ix.source

/-- As many levels are in use. -/
theorem SameBut.activeLevels (h : ix.SameBut ix' c c') : ix'.activeLevels = ix.activeLevels := by
  rw [Index.activeLevels, h.heads, List.length_map]
  rfl

/-- Names, values and heights are the same. -/
theorem SameBut.shapes (h : ix.SameBut ix' c c') :
    ix'.inOrder.map Entry.shape = ix.inOrder.map Entry.shape := by
  rw [h.entries, List.map_map]
  exact List.map_congr_left fun e _ => e.shape_replace c c'

/-- The entries of other cookies keep them. -/
theorem SameBut.exists_of_cookie_ne (h : ix.SameBut ix' c c') {a : Entry V} (ha : a ∈ ix.inOrder)
    (hne : a.cookie ≠ c) : ∃ a' ∈ ix'.inOrder, a'.shape = a.shape ∧ a'.cookie = a.cookie := by
  refine ⟨a.replace c c', ?_, a.shape_replace c c', Cookie.replace_of_ne hne c'⟩
  rw [h.entries]
  exact List.mem_map_of_mem ha

/-- Indexes whose nodes differ in one cookie differ in nothing but that cookie. -/
theorem Layout.sameBut (h : ix.Layout ns) (h' : ix'.Layout (ns.map fun n => n.replace c c'))
    (hc : c ≠ .null) (hlevels : ix'.heads.length = ix.heads.length)
    (hmax : ix'.maxCapacity = ix.maxCapacity) (hsource : ix'.source = ix.source) :
    ix.SameBut ix' c c' where
  entries := by rw [h'.inOrder_eq, h.inOrder_eq, map_replace_weave hc]
  visits := by
    intro level d hd
    rw [h.heads level (List.getElem?_eq_some_iff.1 hd).1, Option.some.injEq] at hd
    subst hd
    have hvisits' := h'.visits_level level
    rw [firstAt_map_replace hc, ← map_replace_weave hc, List.filter_map] at hvisits'
    refine ⟨_, h.visits_level level, ?_⟩
    simpa only [Function.comp_def, Entry.height_replace] using hvisits'
  heads := by
    rw [h'.heads_eq, h.heads_eq, hlevels, List.map_map]
    exact List.map_congr_left fun level _ => firstAt_map_replace hc c' level ns
  tail := by
    have hlast := lastOf_map (r := fun d => d.replace c c') (f := fun n : Node V => n.replace c c')
      (fun _ => rfl) .null ns
    rw [h'.tail, h.tail, ← hlast, Cookie.replace_of_ne hc.symm]
  count := by rw [h'.count, h.count, List.length_map]
  maxCapacity := hmax
  source := hsource

/-! ## Changing places -/

/-- The nodes left of those before a new one, the new one, and those left of the others are what is
left of all of them, if the new one is. -/
theorem filter_cookie_append_cons {pre post : List (Node V)} {x : Node V} (hx : x.cookie ≠ d) :
    ((pre ++ x :: post).filter fun m => m.cookie ≠ d) =
      (pre.filter fun m => m.cookie ≠ d) ++ x :: post.filter fun m => m.cookie ≠ d := by
  rw [List.filter_append, List.filter_cons_of_pos (by simpa using hx)]

/-- Where one node has the cookie, it is the one that gets another. -/
theorem map_replace_nodeUnder {pre post : List (Node V)} {height : Nat}
    (hpre : ∀ m ∈ pre, m.cookie ≠ c) (hpost : ∀ m ∈ post, m.cookie ≠ c) (c' : Cookie) :
    ((pre ++ e.nodeUnder c height :: post).map fun m => m.replace c c') =
      pre ++ e.nodeUnder c' height :: post := by
  rw [List.map_append, List.map_cons, map_replace_of_ne hpre, map_replace_of_ne hpost,
    Node.replace, Entry.cookie_nodeUnder, Cookie.replace_self]
  rfl

/-- An index that has lost a node has room if it had before. -/
theorem Layout.room_of_filter {ns' : List (Node V)} (h : ix.Layout ns) (h' : ix'.Layout ns')
    (hframe : ix.SameFrame ix') (hlost : ns'.length < ns.length) :
    ix'.count < ix'.grownCapacity := by
  calc ix'.count = ns'.length := h'.count
    _ < ns.length := hlost
    _ ≤ ix.capacity := h.length_le_capacity
    _ = ix'.capacity := hframe.capacity.symm
    _ ≤ ix'.grownCapacity := ix'.capacity_le_grownCapacity

variable [LevelSource G]

/-- An enrolment at a place that is known to be that of the name. -/
theorem Layout.enroll_between {pre post : List (Node V)} (h : ix.Layout (pre ++ post))
    (hpre : ∀ n ∈ pre, n.name < e.name) (hpost : ∀ n ∈ post, e.name < n.name)
    (he : e.isLinked = false) (hmeans : ix.HasMeans) (hroom : ix.count < ix.grownCapacity) :
    ∃ c ix', ix.enroll e = .ok (.ok c, ix') ∧
      ix'.Layout (pre ++ e.nodeUnder c (LevelSource.drawHeight ix.source).1 :: post) ∧
      c ≠ .null ∧ (∀ n ∈ pre ++ post, n.cookie ≠ c) ∧
      ix'.heads.length = max ix.heads.length (LevelSource.drawHeight ix.source).1 ∧
      ix'.maxCapacity = ix.maxCapacity ∧ ix'.source = (LevelSource.drawHeight ix.source).2 := by
  have hname : named e.name (pre ++ post) = false := by
    rw [named_eq_false_iff, List.forall_mem_append]
    exact ⟨fun n hn => Name.ne_of_lt (hpre n hn), fun n hn => (Name.ne_of_lt (hpost n hn)).symm⟩
  obtain ⟨pre', post', c, ix', hsplit, hpre', hpost', henroll, h', hfirst, -, -, hrest⟩ :=
    h.enroll_fresh he hname hmeans hroom
  obtain ⟨rfl, rfl⟩ := split_at_unique hpre (fun n hn => List.lt_asymm (hpost n hn)) hpre'
    (fun n hn => List.lt_asymm (hpost' n hn)) hsplit
  have hafter := hfirst.after
  refine ⟨c, ix', henroll, h', ?_, ?_, hrest⟩
  · rintro rfl
    exact Nat.not_lt_zero _ hafter
  · rintro n hn rfl
    have hissued := (h.issued n hn).2
    omega

/-- An enrolment and the removal of a node, in either order. -/
theorem Layout.exists_exchange (h : ix.Layout ns) (he : e.isLinked = false)
    (hname : named e.name ns = false) (hn : n ∈ ns) (hroom : ix.count < ix.grownCapacity) :
    ∃ ix₁', ix.remove n.cookie = .ok (some n.unlinked, ix₁') ∧
      (ix.HasMeans → ix₁'.HasMeans → ∃ c c' ix₁ ix₂ ix₂' ns₂,
        ix.enroll e = .ok (.ok c, ix₁) ∧ ix₁.remove n.cookie = .ok (some n.unlinked, ix₂) ∧
        ix₁'.enroll e = .ok (.ok c', ix₂') ∧ ix₂.SameBut ix₂' c c' ∧ ix₂.Layout ns₂ ∧
        e.nodeUnder c (LevelSource.drawHeight ix.source).1 ∈ ns₂) := by
  obtain ⟨pre, post, rfl, hpre, hpost⟩ := exists_split_at h.sorted e.name
  have hpost := lt_name_of_not_named hname hpost
  obtain ⟨ix₁', hremove', h₁', hframe'⟩ := h.exists_remove n.cookie
  rw [h.unlinked_get? hn] at hremove'
  refine ⟨ix₁', hremove', fun hmeans hmeans' => ?_⟩
  obtain ⟨c, ix₁, henroll, h₁, hnull, hc, hlevels, hmax, hsource⟩ :=
    h.enroll_between hpre hpost he hmeans hroom
  obtain ⟨ix₂, hremove, h₂, hframe⟩ := h₁.exists_remove n.cookie
  -- After the removal there is room as well, and the place is the same.
  have h₁' := h.of_sameFrame h₁' hframe'
  have hroom' : ix₁'.count < ix₁'.grownCapacity := by
    refine h.room_of_filter h₁' hframe' ?_
    exact List.length_filter_lt_length_iff_exists.2 ⟨n, hn, by simp⟩
  rw [List.filter_append] at h₁'
  obtain ⟨c', ix₂', henroll', h₂', -, -, hlevels', hmax', hsource'⟩ := h₁'.enroll_between
    (fun m hm => hpre m (List.mem_filter.1 hm).1) (fun m hm => hpost m (List.mem_filter.1 hm).1)
    he hmeans' hroom'
  rw [hframe'.source] at h₂' hlevels' hsource'
  -- The nodes that are left differ in the cookie of the new one.
  have hnew : (e.nodeUnder c (LevelSource.drawHeight ix.source).1).cookie ≠ n.cookie :=
    (hc n hn).symm
  rw [filter_cookie_append_cons hnew] at h₂
  have h₂ := h₁.of_sameFrame h₂ hframe
  rw [List.forall_mem_append] at hc
  rw [← map_replace_nodeUnder (fun m hm => hc.1 m (List.mem_filter.1 hm).1)
    (fun m hm => hc.2 m (List.mem_filter.1 hm).1) c'] at h₂'
  refine ⟨c, c', ix₁, ix₂, ix₂', _, henroll, ?_, henroll', ?_, h₂, by simp⟩
  · have hmem : n ∈ pre ++ e.nodeUnder c (LevelSource.drawHeight ix.source).1 :: post := by
      rw [List.mem_append] at hn
      rw [List.mem_append, List.mem_cons]
      exact hn.imp_right .inr
    rw [hremove, h₁.unlinked_get? hmem]
  · refine h₂.sameBut h₂' hnull ?_ ?_ ?_
    · rw [hlevels', hframe'.levels, hframe.levels, hlevels]
    · rw [hmax', hframe'.maxCapacity, hframe.maxCapacity, hmax]
    · rw [hsource', hframe.source, hsource]

/-- An index that passes its check and has room for an unlinked entry of a new name removes another
entry. If it has the means for the new one, before and after that, it comes to the same entries, at
the same levels and in the same order, whether the new entry is enrolled first or the other one is
removed first. Only the new entry may get another cookie. -/
theorem enroll_remove_exchange {count : Nat} (hcap : ix.capacity.isPowerOfTwo)
    (hcheck : ix.check = .ok count) (hroom : ix.HasRoom) {a : Entry V} (ha : a ∈ ix.table.live)
    (he : e.isLinked = false) (hnew : ¬ ix.HasName e.name) :
    ∃ ix₁', ix.remove a.cookie = .ok (some a.unlinked, ix₁') ∧
      (ix.HasMeans → ix₁'.HasMeans → ∃ c c' ix₁ ix₂ ix₂',
        ix.enroll e = .ok (.ok c, ix₁) ∧ ix₁.remove a.cookie = .ok (some a.unlinked, ix₂) ∧
        ix₁'.enroll e = .ok (.ok c', ix₂') ∧
        ix₂.SameBut ix₂' c c' ∧ ix₂'.inOrder.map Entry.shape = ix₂.inOrder.map Entry.shape ∧
        ix₂'.activeLevels = ix₂.activeLevels ∧
        (∃ x ∈ ix₂.inOrder, x.cookie = c ∧ x.unlinked = e.unlinked) ∧
        ∀ b ∈ ix₂.inOrder, b.name ≠ e.name →
          ∃ b' ∈ ix₂'.inOrder, b'.shape = b.shape ∧ b'.cookie = b.cookie) := by
  obtain ⟨ns, h⟩ := exists_layout_of_check hcap hcheck
  rw [h.hasName_iff, Bool.not_eq_true] at hnew
  rw [h.hasRoom_iff] at hroom
  have hnode : a.node ∈ ns := node_mem_of_mem_weave (h.stores.mem_live_iff.1 ha)
  obtain ⟨ix₁', hremove', hexchange⟩ := h.exists_exchange he hnew hnode hroom
  refine ⟨ix₁', hremove', fun hmeans hmeans' => ?_⟩
  obtain ⟨c, c', ix₁, ix₂, ix₂', ns₂, henroll, hremove, henroll', hsame, h₂, hx⟩ :=
    hexchange hmeans hmeans'
  obtain ⟨x, hx, hxnode⟩ : ∃ x ∈ weave [] .null ns₂, x.node = _ := exists_mem_weave hx
  have hcookie : x.cookie = c := congrArg (fun n => n.cookie) hxnode
  have hunlinked : x.unlinked = e.unlinked := congrArg (fun n => n.unlinked) hxnode
  refine ⟨c, c', ix₁, ix₂, ix₂', henroll, hremove, henroll', hsame, hsame.shapes,
    hsame.activeLevels, ?_, ?_⟩
  · rw [h₂.inOrder_eq]
    exact ⟨x, hx, hcookie, hunlinked⟩
  · intro b hb hname
    refine hsame.exists_of_cookie_ne hb fun hbc => hname ?_
    -- The new entry is the only one of its cookie.
    rw [h₂.inOrder_eq] at hb
    rw [h₂.stores.eq_of_cookie_eq hb hx (hbc.trans hcookie.symm)]
    exact congrArg (fun n => n.name) hxnode

/-- Removing the entry in the way first gives the new one the cookie that is passed over
otherwise. -/
theorem enroll_remove_exchange_pinned :
    pinned.check = .ok 1 ∧ ∃ ix₁ ix₂ ix₁' ix₂',
      pinned.enroll { name := [98], value := 8 } = .ok (.ok ⟨4⟩, ix₁) ∧
      ix₁.remove ⟨1⟩ = .ok (some { name := [97], value := 7 }, ix₂) ∧
      pinned.remove ⟨1⟩ = .ok (some { name := [97], value := 7 }, ix₁') ∧
      ix₁'.enroll { name := [98], value := 8 } = .ok (.ok ⟨3⟩, ix₂') ∧
      ix₂.SameBut ix₂' ⟨4⟩ ⟨3⟩ := by
  have hcheck : pinned.check = .ok 1 := by rfl
  have hnew : ¬ pinned.HasName [98] := by
    simp [HasName, pinned, lone, CookieTable.live]
  have hmeans : pinned.HasMeans := ⟨by decide, 4, by decide⟩
  obtain ⟨ix₁', hremove', hexchange⟩ :=
    enroll_remove_exchange (e := { name := [98], value := 8 }) ⟨1, rfl⟩ hcheck (.inl (by decide))
      (a := ⟨[97], 7, ⟨1⟩, [.null], .null⟩) (by decide) rfl hnew
  have hremoved : pinned.remove ⟨1⟩ = .ok (some { name := [97], value := 7 },
      { pinned with table := ⟨#[none, none], by decide⟩, heads := [.null], tail := .null,
                    count := 0 }) := by rfl
  rw [show pinned.remove ⟨1⟩ = .ok _ from hremove'] at hremoved
  cases hremoved
  obtain ⟨c, c', ix₁, ix₂, ix₂', henroll, hremove, henroll', hsame, -⟩ :=
    hexchange hmeans ⟨by decide, 3, by decide⟩
  have hc : (pinned.enroll { name := [98], value := 8 }).map (fun r => r.1.toOption) =
      .ok (some ⟨4⟩) := by decide +kernel
  have hc' : (pinned.remove ⟨1⟩ >>= fun r => r.2.enroll { name := [98], value := 8 }).map
      (fun r => r.1.toOption) = .ok (some ⟨3⟩) := by decide +kernel
  rw [henroll] at hc
  rw [show pinned.remove ⟨1⟩ = .ok _ from hremove', ok_bind, henroll'] at hc'
  cases hc
  cases hc'
  exact ⟨hcheck, ix₁, ix₂, _, ix₂', henroll, hremove, hremove', henroll', hsame⟩

/-- The order matters where an entry cannot be added, although the index passes its check and is not
full at its greatest size: one has passed every cookie, and in one that may not double its slots the
new entry waits for the slot of the other. -/
theorem enroll_remove_barred :
    (spent (ChaCha.ofSeed 0)).check = .ok 1 ∧ ¬ (spent (ChaCha.ofSeed 0)).HasName [98] ∧
      ¬ (spent (ChaCha.ofSeed 0)).IsFull ∧
      (spent (ChaCha.ofSeed 0)).enroll { name := [98], value := 8 } = .error .cookiesSpent ∧
      (stuck (ChaCha.ofSeed 0)).check = .ok 2 ∧ ¬ (stuck (ChaCha.ofSeed 0)).HasName [99] ∧
      ¬ (stuck (ChaCha.ofSeed 0)).IsFull ∧
      ((stuck (ChaCha.ofSeed 0)).enroll { name := [99], value := 9 }).map (fun r => r.1) =
        .ok (.error ⟨.cookieCollision ⟨3⟩ 1, { name := [99], value := 9 }⟩) ∧
      ((stuck (ChaCha.ofSeed 0)).remove ⟨1⟩ >>= fun r =>
        r.2.enroll { name := [99], value := 9 }).map (fun r => r.1) = .ok (.ok ⟨3⟩) := by
  obtain ⟨hnew, hroom⟩ := spent_vacant (ChaCha.ofSeed 0)
  obtain ⟨hnew', hroom'⟩ := stuck_vacant (ChaCha.ofSeed 0)
  exact ⟨by rfl, hnew, hroom, by decide +kernel, by rfl, hnew', hroom', by decide +kernel,
    by decide +kernel⟩

end Index

end NameIndex
