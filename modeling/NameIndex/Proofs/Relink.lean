import NameIndex.Index.Remove
import NameIndex.Proofs.Search

/-!
# Splicing

The writes by which a node comes into an index or leaves it: new levels (`Layout.raise`), the links
of the last holders before its place (`relink_spec`), and the back link after it
(`setPrev_spec`). Between these writes an index is not laid out, so they are given by what the table
stores: some nodes before the place, in front of `rest`, and other entries.
-/

namespace NameIndex

variable {G V : Type} {ix : Index G V}

namespace Index

/-- New levels pass no node. -/
theorem Layout.raise {ns : List (Node V)} (h : ix.Layout ns) {height : Nat}
    (hheight : height ≤ maxLevels) : (ix.raise height).Layout ns where
  capacity := h.capacity
  sorted := h.sorted
  stores := h.stores
  heads := by
    intro level hlevel
    rw [Index.raise] at hlevel ⊢
    rw [List.length_append, List.length_replicate] at hlevel
    by_cases hold : level < ix.heads.length
    · rw [List.getElem?_append_left hold, h.heads level hold]
    · have hlow : ∀ n ∈ ns, n.height ≤ level := fun n hn => by
        have := (h.heights n hn).2
        omega
      rw [List.getElem?_append_right (by omega), List.getElem?_replicate, if_pos (by omega),
        firstAt_of_low hlow]
  tail := h.tail
  count := h.count
  levels := by
    have := h.levels
    rw [Index.raise, List.length_append, List.length_replicate]
    omega
  heights := by
    intro n hn
    have := h.heights n hn
    rw [Index.raise, List.length_append, List.length_replicate]
    omega
  issued := h.issued

theorem length_heads_raise (ix : Index G V) (height : Nat) :
    (ix.raise height).heads.length = max ix.heads.length height := by
  rw [raise, List.length_append, List.length_replicate]
  omega

theorem relink_succ (p : Predecessors) (height : Nat) (next : Nat → Cookie) :
    ix.relink p (height + 1) next =
      (ix.relink p height next).setSuccessor (p.before height) height (next height) := by
  rw [relink, List.range_succ, List.foldl_append]
  rfl

/-- Rewriting the links below a height rewrites the heads and the stored entries. -/
theorem relink_eq {es : List (Entry V)} (hstores : ix.table.Stores es)
    (hnull : ∀ e ∈ es, e.cookie ≠ .null) (p : Predecessors) (height : Nat) (next : Nat → Cookie) :
    ∃ table, ix.relink p height next =
        { ix with table, heads := relinked p.before height next .null ix.heads } ∧
      table.capacity = ix.table.capacity ∧
      table.Stores (es.map (Entry.relink p.before height next)) := by
  induction height with
  | zero =>
    refine ⟨ix.table, ?_, rfl, ?_⟩
    · rw [relinked_of_ne (by omega)]
      rfl
    · rw [map_relink_of_ne (by omega)]
      exact hstores
  | succ height ih =>
    obtain ⟨table, hrelink, hcap, htable⟩ := ih
    rw [relink_succ, hrelink, setSuccessor, relinked_succ]
    by_cases hholder : p.before height = .null
    · -- The null cookie holds the heads, and no entry has it.
      have hsame : ∀ e ∈ es,
          e.relink p.before (height + 1) next = e.relink p.before height next := by
        intro e he
        rw [Entry.relink_succ, hholder]
        exact if_neg (hnull e he)
      refine ⟨table, ?_, hcap, ?_⟩
      · rw [if_pos hholder, if_pos hholder.symm]
      · rw [List.map_congr_left hsame]
        exact htable
    · refine ⟨table.modify (p.before height) fun e =>
        { e with links := e.links.set height (next height) }, ?_, ?_, ?_⟩
      · rw [if_neg hholder, if_neg fun hc => hholder hc.symm]
      · rw [CookieTable.capacity_modify, hcap]
      · have hmodify := htable.modify hholder
          (f := fun e => { e with links := e.links.set height (next height) }) fun _ => rfl
        rw [List.map_map] at hmodify
        rw [List.map_congr_left fun e _ => e.relink_succ]
        exact hmodify

variable {pre post rest rest' : List (Node V)} {others : List (Entry V)}

/-- Rewriting the links of the last holders before a place, at the levels below a height, leads the
levels on from `rest` to `rest'`, if these agree at the other levels. -/
theorem relink_spec (hstores : ix.table.Stores (weave rest .null pre ++ others))
    (hheads : ∀ level < ix.heads.length, ix.heads[level]? = some (firstAt level (pre ++ rest)))
    (hpre : ∀ n ∈ pre, n.cookie ≠ .null) (hnodup : (pre.map (·.cookie)).Nodup)
    (hothers : ∀ e ∈ others, e.cookie ≠ .null ∧ ∀ n ∈ pre, n.cookie ≠ e.cookie)
    {p : Predecessors} (hp : ∀ level, p.before level = lastAt level .null pre) (height : Nat)
    (next : Nat → Cookie) (hnext : ∀ level < height, next level = firstAt level rest')
    (hsame : ∀ level, height ≤ level → firstAt level rest = firstAt level rest') :
    ∃ table heads, ix.relink p height next = { ix with table, heads } ∧
      table.capacity = ix.table.capacity ∧ table.Stores (weave rest' .null pre ++ others) ∧
      heads.length = ix.heads.length ∧
      ∀ level < ix.heads.length, heads[level]? = some (firstAt level (pre ++ rest')) := by
  have hnull : ∀ e ∈ weave rest .null pre ++ others, e.cookie ≠ .null := by
    intro e he
    rcases List.mem_append.1 he with he | he
    · exact hpre _ (node_mem_of_mem_weave he)
    · exact (hothers e he).1
  obtain ⟨table, hrelink, hcap, htable⟩ := relink_eq hstores hnull p height next
  refine ⟨table, _, hrelink, hcap, ?_, List.length_mapIdx, fun level hlevel => ?_⟩
  · rw [List.map_append, weave_map_relink hp (fun _ => hpre) hnodup hnext hsame] at htable
    rw [map_relink_of_ne] at htable
    · exact htable
    · intro e he level _
      rw [hp level]
      rcases lastAt_eq_or_mem level .null pre with hlast | ⟨n, hn, hlast⟩
      · rw [hlast]
        exact (hothers e he).1.symm
      · rw [hlast]
        exact (hothers e he).2 n hn
  · rw [relinked_getElem?, hp level, hheads level hlevel,
      ← firstAt_append_of_rest hpre (hnext level) (hsame level)]
    split_ifs
    · rfl
    · rfl

/-- Another back link for the first of the nodes after a place. -/
theorem setPrev_spec {n : Node V} {q c : Cookie}
    (hstores : ix.table.Stores (others ++ weave [] q (n :: post))) (hn : n.cookie ≠ .null)
    (hnodup : ((n :: post).map (·.cookie)).Nodup) (hothers : ∀ e ∈ others, e.cookie ≠ n.cookie) :
    (ix.setPrev n.cookie c).table.Stores (others ++ weave [] c (n :: post)) := by
  have hmodify := hstores.modify hn (f := fun e => { e with prev := c }) fun _ => rfl
  rw [List.map_append, weave_map_prev hnodup, map_if_cookie_of_ne hothers] at hmodify
  exact hmodify

end Index

end NameIndex
