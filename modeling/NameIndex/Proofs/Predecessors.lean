import NameIndex.Proofs.Scan
import NameIndex.Proofs.Search

/-!
# What a search finds

At each level a search finds the last of the entries before the name that are tall enough for the
level, and at the end whether there is an entry of the name (`Finding`). On all levels together it
goes along to entries before the name, to each of them at most once and in name order, so it takes
no more steps than there are entries before the name and levels.
-/

namespace NameIndex

variable {G V : Type}

/-- The last cookie that a level passes is that of the last node that is tall enough for it. -/
theorem lastAt_eq_getLast? (level : Nat) (c : Cookie) (ns : List (Node V)) :
    lastAt level c ns =
      (((ns.filter fun n => level < n.height).getLast?.map fun n => n.cookie).getD c) := by
  rcases low_or_last level ns with hlow | ⟨as, n, bs, rfl, hn, hlow⟩
  · have hnone : (ns.filter fun n => level < n.height) = [] :=
      List.filter_eq_nil_iff.2 fun n hn => by simpa using hlow n hn
    rw [lastAt_of_low hlow, hnone]
    rfl
  · have hnone : (bs.filter fun n => level < n.height) = [] :=
      List.filter_eq_nil_iff.2 fun n hn => by simpa using hlow n hn
    have hkept : ((as ++ n :: bs).filter fun n => level < n.height) =
        (as.filter fun n => level < n.height) ++ [n] := by
      rw [List.filter_append, List.filter_cons_of_pos (by simpa using hn), hnone]
    rw [lastAt_append_cons hn hlow, hkept, List.getLast?_concat]
    rfl

/-- The cookies of the entries that a property of their nodes selects. -/
theorem map_cookie_filter_weave (q : Node V → Bool) (rest : List (Node V)) (c : Cookie)
    (ns : List (Node V)) :
    ((weave rest c ns).filter fun e => q e.node).map Entry.cookie =
      (ns.filter q).map (·.cookie) := by
  conv_rhs => rw [← map_node_weave rest c ns, List.filter_map, List.map_map]
  rfl

namespace Index

variable {ix : Index G V} {ns pre post : List (Node V)} {name : Name} {wanted : Cookie}

/-- The cookie of the last entry before a name that is tall enough for a level, null if there is
none. -/
def lastBefore (ix : Index G V) (name : Name) (level : Nat) : Cookie :=
  let before := ix.inOrder.filter fun e => level < e.height ∧ e.name < name
  (before.getLast?.map Entry.cookie).getD .null

/-- The cookies of the entries before a name, in name order. -/
def cookiesBefore (ix : Index G V) (name : Name) : List Cookie :=
  (ix.inOrder.filter fun e => e.name < name).map Entry.cookie

/-- What a search for a name finds on its way along the cookies of `trail`. -/
structure Finding (ix : Index G V) (name : Name) (wanted : Cookie) (trail : List Cookie)
    (p : Predecessors) : Prop where
  /-- The search gives this result. -/
  search : ix.search name wanted = .ok p
  /-- At each level it finds the last entry before the name. -/
  before : ∀ level, p.before level = ix.lastBefore name level
  /-- At a level that is not in use it finds none. -/
  unused : ∀ level, ix.heads.length ≤ level → p.before level = .null
  /-- It finds the name exactly if the index holds it. -/
  found_iff : p.found = true ↔ ix.HasName name
  /-- It goes along the trail, and down every level. -/
  course : ix.Course name wanted ix.heads.length .null [] false trail p
  /-- The trail leads along entries before the name, in their order. -/
  passes : trail.Sublist (ix.cookiesBefore name)
  /-- A search has a result if it is given a step for each cookie of the trail and one for each
  level, and not with fewer steps. -/
  steps : ∀ fuel, ix.searchWithin fuel name wanted =
    if trail.length + ix.heads.length ≤ fuel then .ok p else .error .endless

/-- The last entry before a name is the last node passed there. -/
theorem Threaded.lastBefore_eq (h : ix.Threaded (pre ++ post)) (hpre : ∀ n ∈ pre, n.name < name)
    (hpost : ∀ n ∈ post, ¬ n.name < name) (level : Nat) :
    ix.lastBefore name level = lastAt level .null pre := by
  have hcookies := map_cookie_filter_weave (fun n => level < n.height ∧ n.name < name) [] .null
    (pre ++ post)
  have hbefore : (pre.filter fun n => level < n.height ∧ n.name < name) =
      pre.filter fun n => level < n.height :=
    List.filter_congr fun n hn => by simp [hpre n hn]
  have hafter : (post.filter fun n => level < n.height ∧ n.name < name) = [] :=
    List.filter_eq_nil_iff.2 fun n hn => by simp [hpost n hn]
  rw [List.filter_append, hbefore, hafter, List.append_nil] at hcookies
  rw [lastAt_eq_getLast?, ← List.getLast?_map, ← hcookies, List.getLast?_map, lastBefore,
    h.inOrder_eq]
  rfl

/-- The entries before a name are the nodes before its place. -/
theorem Threaded.cookiesBefore_eq (h : ix.Threaded (pre ++ post)) (hpre : ∀ n ∈ pre, n.name < name)
    (hpost : ∀ n ∈ post, ¬ n.name < name) : ix.cookiesBefore name = pre.map (·.cookie) := by
  have hcookies := map_cookie_filter_weave (fun n => n.name < name) [] .null (pre ++ post)
  have hbefore : (pre.filter fun n => n.name < name) = pre :=
    List.filter_eq_self.2 fun n hn => decide_eq_true (hpre n hn)
  have hafter : (post.filter fun n => n.name < name) = [] :=
    List.filter_eq_nil_iff.2 fun n hn => by simpa using hpost n hn
  rw [List.filter_append, hbefore, hafter, List.append_nil] at hcookies
  rw [cookiesBefore, h.inOrder_eq]
  exact hcookies

/-- An entry of a name is the only one, so its cookie is that of every node of the name. -/
theorem Threaded.cookie_eq_of_name (h : ix.Threaded ns) {e : Entry V} (he : e ∈ ix.table.live) :
    ∀ n ∈ ns, n.name = e.name → n.cookie = e.cookie := by
  intro n hn hname
  have hnode : e.node ∈ ns := node_mem_of_mem_weave (h.stores.mem_live_iff.1 he)
  rw [List.inj_on_of_nodup_map h.names_nodup hn hnode hname]
  rfl

/-- The search of a threaded index. -/
theorem Threaded.exists_finding (h : ix.Threaded ns)
    (hwanted : wanted = .null ∨ ∀ n ∈ ns, n.name = name → n.cookie = wanted) :
    ∃ trail p, ix.Finding name wanted trail p := by
  obtain ⟨pre, post, rfl, hpre, hpost⟩ := exists_split_at h.sorted name
  have hafter : wanted = .null ∨ ∀ n ∈ post, n.name = name → n.cookie = wanted :=
    hwanted.imp_right fun hall n hn => hall n (List.mem_append_right pre hn)
  obtain ⟨trail, hcourse, hsub⟩ := h.exists_search_course hpre hpost hafter
  refine ⟨trail, ⟨(List.range ix.heads.length).map fun i => lastAt i .null pre,
    named name post⟩, ?_⟩
  exact {
    search := h.search_eq hpre hpost hafter
    before := fun level => by rw [h.before_eq, h.lastBefore_eq hpre hpost]
    unused := fun level hlevel => by
      have hlow : ∀ n ∈ pre, n.height ≤ level := fun n hn =>
        Nat.le_trans (h.heights n (List.mem_append_left post hn)).2 hlevel
      rw [h.before_eq, lastAt_of_low hlow]
    found_iff := by rw [h.hasName_iff, named_append_of_lt hpre]
    course := hcourse
    passes := by rwa [h.cookiesBefore_eq hpre hpost]
    steps := hcourse.searchWithin_eq }

/-- A search of an index that passes its check comes to an end, whether it is for an entry of the
name or for a certain one that has it. It finds the entries before the name, and goes along to no
more entries than there are of lesser names. -/
theorem search_exact {n : Nat} (hcheck : ix.check = .ok n)
    (hwanted : wanted = .null ∨ ∃ e ∈ ix.table.live, e.name = name ∧ e.cookie = wanted) :
    (ix.inOrder.Perm ix.table.live ∧ ix.inOrder.Pairwise fun a b => a.name < b.name) ∧
      ∃ trail p, ix.Finding name wanted trail p ∧
        trail.length ≤ (ix.table.live.filter fun e => e.name < name).length ∧
        trail.length + ix.heads.length ≤ ix.count + ix.heads.length := by
  obtain ⟨ns, h⟩ := exists_threaded_of_check hcheck
  have hsorted := h.weave_sorted
  rw [← h.inOrder_eq] at hsorted
  have hnodes : wanted = .null ∨ ∀ n ∈ ns, n.name = name → n.cookie = wanted := by
    refine hwanted.imp_right ?_
    rintro ⟨e, he, rfl, rfl⟩
    exact h.cookie_eq_of_name he
  obtain ⟨trail, p, hfinding⟩ := h.exists_finding hnodes
  have hpassed : trail.length ≤ (ix.table.live.filter fun e => e.name < name).length := by
    have hlen := hfinding.passes.length_le
    rwa [cookiesBefore, List.length_map, (ix.inOrder_perm.filter _).length_eq] at hlen
  have hcounted : (ix.table.live.filter fun e => e.name < name).length ≤ ix.count := by
    rw [h.count, ← h.length_live]
    exact List.length_filter_le _ _
  exact ⟨⟨ix.inOrder_perm, hsorted⟩, trail, p, hfinding, hpassed, by omega⟩

/-- The last of the three entries is searched for under its cookie, past two others at the lower
level and one of them at the upper. -/
theorem search_exact_trio :
    trio.check = .ok 3 ∧ ∃ p, trio.search [98] ⟨1⟩ = .ok p ∧ p.found = true ∧
      p.before 0 = ⟨3⟩ ∧ p.before 1 = ⟨2⟩ ∧ p.before 2 = .null := by
  have hcheck : trio.check = .ok 3 := by rfl
  have hwanted : ∃ e ∈ trio.table.live, e.name = [98] ∧ e.cookie = ⟨1⟩ := by decide
  obtain ⟨-, trail, p, hfinding, -, -⟩ := search_exact hcheck (.inr hwanted)
  refine ⟨hcheck, p, hfinding.search, ?_, ?_, ?_, hfinding.unused 2 (by decide)⟩
  · obtain ⟨e, he, hname, -⟩ := hwanted
    exact hfinding.found_iff.2 ⟨e, he, hname⟩
  · rw [hfinding.before]
    decide
  · rw [hfinding.before]
    decide

end Index

end NameIndex
