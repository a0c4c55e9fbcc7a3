import NameIndex.Index.Query
import NameIndex.Proofs.Search

/-!
# Queries of a threaded index

The entries of a threaded index in name order are the weave of its nodes, and every query reads that
list: the ends are its first and last entry, the neighbours of an entry stand next to it there, and
a name cuts it in two, with the entries around the cut as answers. No query fails. A query for a
name is thus a scan of the whole list (`seek_scan`, `floor_scan`, `lookup_scan`).
-/

namespace NameIndex

variable {G V : Type} {pre post ns : List (Node V)} {n : Node V} {name : Name}

theorem lastOf_concat (c : Cookie) (ns : List (Node V)) (n : Node V) :
    lastOf c (ns ++ [n]) = n.cookie := by
  rw [lastOf_append]
  rfl

theorem weave_concat (rest : List (Node V)) (c : Cookie) (ns : List (Node V)) (n : Node V) :
    weave rest c (ns ++ [n]) = weave (n :: rest) c ns ++ [n.linked (lastOf c ns) rest] := by
  rw [weave_append, weave]
  rfl

namespace Index

variable {ix : Index G V}

namespace Threaded

/-- The cookie of a node leads to its entry. -/
theorem follow_cookie (h : ix.Threaded (pre ++ n :: post)) :
    ix.follow n.cookie = .ok (some (n.linked (lastOf .null pre) post)) := by
  rw [follow, if_neg h.cookie_ne_null, h.resolve_cookie, map_ok]

/-- The link to the first node after a place leads to its entry. -/
theorem follow_firstAt (h : ix.Threaded (pre ++ post)) :
    ix.follow (firstAt 0 post) = .ok (weave [] (lastOf .null pre) post).head? := by
  cases post with
  | nil => rfl
  | cons n post =>
    rw [h.firstAt_zero, h.follow_cookie, weave, List.append_nil]
    rfl

/-- The link to the last node before a place leads to its entry. -/
theorem follow_lastOf (h : ix.Threaded (pre ++ post)) :
    ix.follow (lastOf .null pre) = .ok (weave post .null pre).getLast? := by
  rcases List.eq_nil_or_concat pre with rfl | ⟨as, n, rfl⟩
  · rfl
  · rw [List.concat_eq_append] at h ⊢
    rw [List.append_assoc, List.singleton_append] at h
    rw [lastOf_concat, h.follow_cookie, weave_concat, List.getLast?_concat]

theorem first_eq (h : ix.Threaded ns) : ix.first = .ok (weave [] .null ns).head? := by
  rw [first, h.front_eq]
  exact (show ix.Threaded ([] ++ ns) from h).follow_firstAt

theorem last_eq (h : ix.Threaded ns) : ix.last = .ok (weave [] .null ns).getLast? := by
  have hall : ix.Threaded (ns ++ []) := by rwa [List.append_nil]
  rw [last, h.tail]
  exact hall.follow_lastOf

/-- The entry after that of a node. -/
theorem next_eq (h : ix.Threaded (pre ++ n :: post)) :
    ix.next n.cookie = .ok (weave [] n.cookie post).head? := by
  have hafter : ix.Threaded (pre ++ [n] ++ post) := by rwa [List.append_assoc]
  rw [next, get?, h.get?_cookie]
  dsimp only
  rw [n.next_linked _ _ h.height_bounds.1, ok_bind, hafter.follow_firstAt, lastOf_concat]

/-- The entry before that of a node. -/
theorem prev_eq (h : ix.Threaded (pre ++ n :: post)) :
    ix.prev n.cookie = .ok (weave (n :: post) .null pre).getLast? := by
  rw [prev, get?, h.get?_cookie]
  exact h.follow_lastOf

/-- A cookie that no node carries has no neighbours. -/
theorem next_none (h : ix.Threaded ns) {c : Cookie} (hc : ∀ n ∈ ns, n.cookie ≠ c) :
    ix.next c = .ok none := by
  rw [next, get?, h.get?_eq_none_iff.2 hc]

theorem prev_none (h : ix.Threaded ns) {c : Cookie} (hc : ∀ n ∈ ns, n.cookie ≠ c) :
    ix.prev c = .ok none := by
  rw [prev, get?, h.get?_eq_none_iff.2 hc]

/-- The cookies around the place of a name. -/
theorem bracket_eq (h : ix.Threaded (pre ++ post)) (hpre : ∀ n ∈ pre, n.name < name)
    (hpost : ∀ n ∈ post, ¬ n.name < name) :
    ix.bracket name = .ok (lastOf .null pre, firstAt 0 post) := by
  have hheights : ∀ n ∈ pre, 1 ≤ n.height := fun n hn => (h.heights n (by simp [hn])).1
  rw [bracket]
  -- Without levels there is nothing to search, and no node either.
  split_ifs with hheads
  · have hnil := h.nil_of_levels (by rw [hheads]; rfl)
    obtain ⟨rfl, rfl⟩ := List.append_eq_nil_iff.1 hnil
    rfl
  · have hpos := List.length_pos_iff.2 hheads
    rw [h.search_eq hpre hpost (.inl rfl), ok_bind, h.before_eq, h.successor_lastAt hpos, ok_bind,
      lastAt_zero hheights]

/-- The first entry that is not before a name. -/
theorem seek_eq (h : ix.Threaded (pre ++ post)) (hpre : ∀ n ∈ pre, n.name < name)
    (hpost : ∀ n ∈ post, ¬ n.name < name) :
    ix.seek name = .ok (weave [] (lastOf .null pre) post).head? := by
  rw [seek, h.bracket_eq hpre hpost, ok_bind]
  exact h.follow_firstAt

/-- The entry of a name is the first one not before the name, if that has the name. -/
theorem lookup_eq (h : ix.Threaded (pre ++ post)) (hpre : ∀ n ∈ pre, n.name < name)
    (hpost : ∀ n ∈ post, ¬ n.name < name) :
    ix.lookup name =
      .ok ((weave [] (lastOf .null pre) post).head?.filter fun e => e.name = name) := by
  rw [lookup, h.seek_eq hpre hpost]
  rfl

/-- A name that a node has is found. -/
theorem lookup_some (h : ix.Threaded (pre ++ n :: post)) :
    ix.lookup n.name = .ok (some (n.linked (lastOf .null pre) post)) := by
  rw [h.lookup_eq h.lt_name_of_mem h.not_lt_name, weave, List.head?_cons, List.append_nil]
  exact congrArg Except.ok (Option.filter_some_pos (decide_eq_true rfl))

/-- A name that no node has is not found. -/
theorem lookup_none (h : ix.Threaded ns) (hname : ∀ n ∈ ns, n.name ≠ name) :
    ix.lookup name = .ok none := by
  obtain ⟨pre, post, rfl, hpre, hpost⟩ := exists_split_at h.sorted name
  rw [h.lookup_eq hpre hpost]
  cases post with
  | nil => rfl
  | cons n post =>
    have hn : ¬ (n.linked (lastOf .null pre) (post ++ [])).name = name := hname n (by simp)
    rw [weave, List.head?_cons]
    exact congrArg Except.ok (Option.filter_some_neg (decide_eq_false hn))

/-- The last entry that is not after a name is the entry of the name or the last one before it. -/
theorem floor_eq (h : ix.Threaded (pre ++ post)) (hpre : ∀ n ∈ pre, n.name < name)
    (hpost : ∀ n ∈ post, ¬ n.name < name) :
    ix.floor name = .ok (((weave [] (lastOf .null pre) post).head?.filter fun e => e.name = name).or
      (weave post .null pre).getLast?) := by
  rw [floor, h.bracket_eq hpre hpost, ok_bind]
  dsimp only
  rw [h.follow_firstAt, ok_bind]
  cases (weave [] (lastOf .null pre) post).head?.filter fun e => e.name = name with
  | none => exact h.follow_lastOf
  | some e => rfl

/-! ## Queries as scans -/

/-- The entries that are not before a name are those from its place on. -/
theorem filter_not_before (hpre : ∀ n ∈ pre, n.name < name) (hpost : ∀ n ∈ post, ¬ n.name < name) :
    (weave [] .null (pre ++ post)).filter (fun e => ¬ e.name < name) =
      weave [] (lastOf .null pre) post := by
  have hdropped : (weave post .null pre).filter (fun e => ¬ e.name < name) = [] :=
    filter_weave_of_forall_not (p := fun n => ¬ n.name < name) fun n hn => not_not.2 (hpre n hn)
  have hkept : (weave [] (lastOf .null pre) post).filter (fun e => ¬ e.name < name) =
      weave [] (lastOf .null pre) post :=
    filter_weave_of_forall (p := fun n => ¬ n.name < name) hpost
  rw [weave_append, List.append_nil, List.filter_append, hdropped, hkept, List.nil_append]

/-- The entries that are not after a name are those before the place where the names pass it. -/
theorem filter_not_after (hpre : ∀ n ∈ pre, ¬ name < n.name) (hpost : ∀ n ∈ post, name < n.name) :
    (weave [] .null (pre ++ post)).filter (fun e => ¬ name < e.name) = weave post .null pre := by
  have hkept : (weave post .null pre).filter (fun e => ¬ name < e.name) = weave post .null pre :=
    filter_weave_of_forall (p := fun n => ¬ name < n.name) hpre
  have hdropped : (weave [] (lastOf .null pre) post).filter (fun e => ¬ name < e.name) = [] :=
    filter_weave_of_forall_not (p := fun n => ¬ name < n.name) fun n hn => not_not.2 (hpost n hn)
  rw [weave_append, List.append_nil, List.filter_append, hkept, hdropped, List.append_nil]

/-- Seeking a name finds the first of the entries not before it. -/
theorem seek_scan (h : ix.Threaded ns) (name : Name) :
    ix.seek name = .ok ((weave [] .null ns).filter fun e => ¬ e.name < name).head? := by
  obtain ⟨pre, post, rfl, hpre, hpost⟩ := exists_split_at h.sorted name
  rw [h.seek_eq hpre hpost, filter_not_before hpre hpost]

/-- The floor of a name is the last of the entries not after it. -/
theorem floor_scan (h : ix.Threaded ns) (name : Name) :
    ix.floor name = .ok ((weave [] .null ns).filter fun e => ¬ name < e.name).getLast? := by
  -- The node of the name itself is the answer, or else the last one before the name.
  rcases node_cases (fun n => n.name = name) ns with hnone | ⟨pre, n, post, rfl, rfl⟩
  · obtain ⟨pre, post, rfl, hpre, hpost⟩ := exists_split_at h.sorted name
    have hbefore : ∀ n ∈ pre, ¬ name < n.name := fun n hn => List.lt_asymm (hpre n hn)
    have hafter : ∀ n ∈ post, name < n.name := fun n hn => by
      by_contra hlt
      exact hnone n (List.mem_append_right _ hn) (Name.eq_of_not_lt (hpost n hn) hlt)
    have hlookup := (h.lookup_eq hpre hpost).symm.trans (h.lookup_none hnone)
    rw [h.floor_eq hpre hpost, Except.ok.inj hlookup, Option.none_or,
      filter_not_after hbefore hafter]
  · have hupto : ∀ m ∈ pre ++ [n], ¬ n.name < m.name := by
      rw [List.forall_mem_append, List.forall_mem_singleton]
      exact ⟨fun m hm => List.lt_asymm (h.lt_name_of_mem m hm), List.lt_irrefl _⟩
    have hsplit : pre ++ n :: post = pre ++ [n] ++ post := by simp
    have hlookup := (h.lookup_eq h.lt_name_of_mem h.not_lt_name).symm.trans h.lookup_some
    rw [h.floor_eq h.lt_name_of_mem h.not_lt_name, Except.ok.inj hlookup, Option.some_or, hsplit,
      filter_not_after hupto h.name_lt_of_mem, weave_concat, List.getLast?_concat]

/-- Looking a name up finds the entry that has it. -/
theorem lookup_scan (h : ix.Threaded ns) (name : Name) :
    ix.lookup name = .ok ((weave [] .null ns).find? fun e => e.name = name) := by
  rcases node_cases (fun n => n.name = name) ns with hnone | ⟨pre, n, post, rfl, rfl⟩
  · rw [h.lookup_none hnone]
    exact congrArg Except.ok (find?_weave_of_forall_not hnone).symm
  · have hpre : ∀ m ∈ pre, m.name ≠ n.name := fun m hm => h.name_ne m (List.mem_append_left _ hm)
    have hfound : (weave [] .null (pre ++ n :: post)).find? (fun e => e.name = n.name) =
        some (n.linked (lastOf .null pre) (post ++ [])) :=
      find?_weave_append_cons (p := fun m => m.name = n.name) hpre rfl
    rw [h.lookup_some, hfound, List.append_nil]

end Threaded

/-! ## Changing a value -/

/-- A cookie that no node carries has no value to change. -/
theorem Layout.setValue_none (h : ix.Layout ns) {c : Cookie} (hc : ∀ n ∈ ns, n.cookie ≠ c) (v : V) :
    ix.setValue c v = (none, ix) := by
  rw [setValue, get?, CookieTable.modify, h.get?_eq_none_iff.2 hc]
  rfl

/-- A node that gives way to one of the same name, cookie and height. -/
theorem Layout.replace (h : ix.Layout (pre ++ n :: post)) {x : Node V} (hname : x.name = n.name)
    (hcookie : x.cookie = n.cookie) (hheight : x.height = n.height) {table : CookieTable V}
    (hcap : table.capacity = ix.capacity)
    (hstores : table.Stores (weave [] .null (pre ++ x :: post))) :
    ({ ix with table } : Index G V).Layout (pre ++ x :: post) := by
  have hfirst : ∀ level, firstAt level (n :: post) = firstAt level (x :: post) := fun level => by
    rw [firstAt, firstAt, hcookie, hheight]
  have hlast : lastOf .null (pre ++ x :: post) = lastOf .null (pre ++ n :: post) := by
    rw [lastOf_append, lastOf_append, lastOf, lastOf, hcookie]
  have hlen : (pre ++ x :: post).length = (pre ++ n :: post).length := by simp
  have hpower := h.capacity
  rw [← hcap] at hpower
  have hsorted := h.sorted
  rw [List.pairwise_append, List.pairwise_cons] at hsorted
  simp only [List.forall_mem_cons] at hsorted
  have hheights := h.heights
  have hissued := h.issued
  rw [List.forall_mem_append, List.forall_mem_cons] at hheights hissued
  refine ⟨⟨?_, hstores, fun level hlevel => ?_, h.tail.trans hlast.symm, h.count.trans hlen.symm,
    h.levels, ?_, ?_⟩, hpower⟩
  · rw [List.pairwise_append, List.pairwise_cons]
    simp only [List.forall_mem_cons, hname]
    exact hsorted
  · exact (h.heads level hlevel).trans (congrArg some (firstAt_append_congr pre (hfirst level)))
  · rw [List.forall_mem_append, List.forall_mem_cons, hheight]
    exact hheights
  · rw [List.forall_mem_append, List.forall_mem_cons, hcookie]
    exact hissued

/-- The value of a node is changed in its place. -/
theorem Layout.setValue_some (h : ix.Layout (pre ++ n :: post)) (v : V) :
    ∃ table, ix.setValue n.cookie v = (some n.value, { ix with table }) ∧
      table.capacity = ix.capacity ∧
      ({ ix with table } : Index G V).Layout (pre ++ { n with value := v } :: post) := by
  have hfirst : ∀ level, firstAt level (n :: post) =
      firstAt level ({ n with value := v } :: post) := fun level => rfl
  have hothers := h.cookie_ne
  rw [List.forall_mem_append] at hothers
  have hbefore : ∀ e ∈ weave (n :: post) .null pre, e.cookie ≠ n.cookie :=
    cookie_ne_of_mem_weave hothers.1
  have hafter : ∀ e ∈ weave [] n.cookie post, e.cookie ≠ n.cookie :=
    cookie_ne_of_mem_weave hothers.2
  -- The entries around it link to the node as before, for its cookie and height are the same.
  have hweave : ((weave [] .null (pre ++ n :: post)).map fun e =>
      if e.cookie = n.cookie then { e with value := v } else e) =
        weave [] .null (pre ++ { n with value := v } :: post) := by
    rw [weave_append, weave_append, weave, weave, List.map_append, List.map_cons, List.append_nil,
      List.append_nil, List.append_nil, map_if_cookie_of_ne hbefore, map_if_cookie_of_ne hafter,
      weave_congr hfirst, if_pos (Node.cookie_linked ..)]
    rfl
  have hstores := h.stores.modify h.cookie_ne_null
    (f := fun e => { e with value := v }) fun _ => rfl
  rw [hweave] at hstores
  have hcap := ix.table.capacity_modify n.cookie fun e => { e with value := v }
  refine ⟨_, ?_, hcap, h.replace (x := { n with value := v }) rfl rfl rfl hcap hstores⟩
  rw [setValue, get?, h.get?_cookie]
  rfl

end Index

end NameIndex
