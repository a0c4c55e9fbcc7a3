import Mathlib.Data.List.Basic
import NameIndex.Index.Basic
import NameIndex.Proofs.NameOrder
import NameIndex.Proofs.Storage

/-!
# Threading a list of entries

The structure of a sound index is a function of a list: its entries in name order, each with its
height. `Node` is such an entry without its links, and `weave` gives the links back. Level `i` of a
list of nodes passes the nodes of more than `i` levels; `firstAt` is the first cookie that it
passes, `lastAt` the last one, and the link of a node at level `i` is `firstAt i` of the nodes after
it.

Splicing a node in or out changes what follows the nodes before it. `weave_map_relink` says that
rewriting, at each level below a height, the link of the last node passed there is all that the
change takes.
-/

namespace NameIndex

/-- An entry as the levels pass it: what a reader sees of it, and its height. -/
structure Node (V : Type) extends Record V where
  /-- The number of levels that the entry takes part in. -/
  height : Nat
deriving DecidableEq

variable {V : Type}

/-- An entry without its links. -/
def Entry.node (e : Entry V) : Node V := { e.record with height := e.height }

/-- The node of an entry that is enrolled under a cookie with some height. -/
def Entry.nodeUnder (e : Entry V) (c : Cookie) (height : Nat) : Node V :=
  { name := e.name, value := e.value, cookie := c, height }

@[simp] theorem Entry.name_nodeUnder (e : Entry V) (c : Cookie) (height : Nat) :
    (e.nodeUnder c height).name = e.name := rfl

@[simp] theorem Entry.cookie_nodeUnder (e : Entry V) (c : Cookie) (height : Nat) :
    (e.nodeUnder c height).cookie = c := rfl

@[simp] theorem Entry.height_nodeUnder (e : Entry V) (c : Cookie) (height : Nat) :
    (e.nodeUnder c height).height = height := rfl

/-! ## The ends of a level -/

/-- The first cookie that a level passes, null if it passes none. -/
def firstAt (level : Nat) : List (Node V) → Cookie
  | [] => .null
  | n :: ns => if level < n.height then n.cookie else firstAt level ns

/-- The last cookie that a level passes, `c` if it passes none. -/
def lastAt (level : Nat) (c : Cookie) : List (Node V) → Cookie
  | [] => c
  | n :: ns => lastAt level (if level < n.height then n.cookie else c) ns

/-- The cookie of the last node, `c` if there is none. -/
def lastOf (c : Cookie) : List (Node V) → Cookie
  | [] => c
  | n :: ns => lastOf n.cookie ns

variable {level : Nat} {c : Cookie} {ns as bs : List (Node V)}

/-- A level passes no node, or there is a first one that it passes. -/
theorem low_or_first (level : Nat) (ns : List (Node V)) :
    (∀ n ∈ ns, n.height ≤ level) ∨
      ∃ as n bs, ns = as ++ n :: bs ∧ (∀ m ∈ as, m.height ≤ level) ∧ level < n.height := by
  induction ns with
  | nil => exact .inl (by simp)
  | cons n ns ih =>
    by_cases hn : level < n.height
    · exact .inr ⟨[], n, ns, rfl, by simp, hn⟩
    · rcases ih with hlow | ⟨as, m, bs, rfl, hlow, hm⟩
      · exact .inl (List.forall_mem_cons.2 ⟨by omega, hlow⟩)
      · exact .inr ⟨n :: as, m, bs, rfl, List.forall_mem_cons.2 ⟨by omega, hlow⟩, hm⟩

/-- A level passes no node, or there is a last one that it passes. -/
theorem low_or_last (level : Nat) (ns : List (Node V)) :
    (∀ n ∈ ns, n.height ≤ level) ∨
      ∃ as n bs, ns = as ++ n :: bs ∧ level < n.height ∧ ∀ m ∈ bs, m.height ≤ level := by
  induction ns with
  | nil => exact .inl (by simp)
  | cons n ns ih =>
    rcases ih with hlow | ⟨as, m, bs, rfl, hm, hlow⟩
    · by_cases hn : level < n.height
      · exact .inr ⟨[], n, ns, rfl, hn, hlow⟩
      · exact .inl (List.forall_mem_cons.2 ⟨by omega, hlow⟩)
    · exact .inr ⟨n :: as, m, bs, rfl, hm, hlow⟩

theorem firstAt_cons_of_lt {n : Node V} (h : level < n.height) :
    firstAt level (n :: ns) = n.cookie :=
  if_pos h

theorem firstAt_of_low (h : ∀ n ∈ ns, n.height ≤ level) : firstAt level ns = .null := by
  induction ns with
  | nil => rfl
  | cons n ns ih =>
    rw [List.forall_mem_cons] at h
    rw [firstAt, if_neg (by omega), ih h.2]

theorem firstAt_append_of_low (h : ∀ n ∈ as, n.height ≤ level) :
    firstAt level (as ++ bs) = firstAt level bs := by
  induction as with
  | nil => rfl
  | cons n as ih =>
    rw [List.forall_mem_cons] at h
    rw [List.cons_append, firstAt, if_neg (by omega), ih h.2]

/-- What follows a node that a level passes does not matter to the first one. -/
theorem firstAt_append_of_mem {n : Node V} (hn : n ∈ as) (h : level < n.height) :
    firstAt level (as ++ bs) = firstAt level as := by
  induction as with
  | nil => simp at hn
  | cons m as ih =>
    by_cases hm : level < m.height
    · rw [List.cons_append, firstAt, if_pos hm, firstAt, if_pos hm]
    · rcases List.mem_cons.1 hn with rfl | hn
      · exact absurd h hm
      · rw [List.cons_append, firstAt, if_neg hm, firstAt, if_neg hm, ih hn]

/-- Two lists that a level enters at the same cookie are the same to it behind other nodes. -/
theorem firstAt_append_congr (as : List (Node V)) {bs' : List (Node V)}
    (h : firstAt level bs = firstAt level bs') :
    firstAt level (as ++ bs) = firstAt level (as ++ bs') := by
  induction as with
  | nil => exact h
  | cons n as ih => rw [List.cons_append, List.cons_append, firstAt, firstAt, ih]

theorem lastAt_append (level : Nat) (c : Cookie) (as bs : List (Node V)) :
    lastAt level c (as ++ bs) = lastAt level (lastAt level c as) bs := by
  induction as generalizing c with
  | nil => rfl
  | cons n as ih => exact ih _

theorem lastAt_of_low (h : ∀ n ∈ ns, n.height ≤ level) : lastAt level c ns = c := by
  induction ns with
  | nil => rfl
  | cons n ns ih =>
    rw [List.forall_mem_cons] at h
    rw [lastAt, if_neg (by omega), ih h.2]

/-- The last cookie passed is that of a node with no further one after it. -/
theorem lastAt_append_cons {n : Node V} (h : level < n.height) (hlow : ∀ m ∈ bs, m.height ≤ level) :
    lastAt level c (as ++ n :: bs) = n.cookie := by
  rw [lastAt_append, lastAt, if_pos h, lastAt_of_low hlow]

/-- The last cookie passed is the given one or that of a node. -/
theorem lastAt_eq_or_mem (level : Nat) (c : Cookie) (ns : List (Node V)) :
    lastAt level c ns = c ∨ ∃ n ∈ ns, lastAt level c ns = n.cookie := by
  rcases low_or_last level ns with hlow | ⟨as, n, bs, rfl, hn, hlow⟩
  · exact .inl (lastAt_of_low hlow)
  · exact .inr ⟨n, by simp, lastAt_append_cons hn hlow⟩

theorem lastOf_append (c : Cookie) (as bs : List (Node V)) :
    lastOf c (as ++ bs) = lastOf (lastOf c as) bs := by
  induction as generalizing c with
  | nil => rfl
  | cons n as ih => exact ih _

/-- Level 0 passes every node. -/
theorem lastAt_zero (h : ∀ n ∈ ns, 1 ≤ n.height) : lastAt 0 c ns = lastOf c ns := by
  induction ns generalizing c with
  | nil => rfl
  | cons n ns ih =>
    rw [List.forall_mem_cons] at h
    rw [lastAt, if_pos (by omega), lastOf, ih h.2]

/-- Level 0 passes every node, so where it passes none there is none. -/
theorem nil_of_low (h : ∀ n ∈ ns, 1 ≤ n.height) (hlow : ∀ n ∈ ns, n.height ≤ 0) : ns = [] :=
  List.eq_nil_iff_forall_not_mem.2 fun n hn => by
    have hone := h n hn
    have hzero := hlow n hn
    omega

/-! ## Weaving the links -/

/-- The linked entry of a node that stands after the cookie `prev` and before the nodes `after`. -/
def Node.linked (n : Node V) (prev : Cookie) (after : List (Node V)) : Entry V where
  name := n.name
  value := n.value
  cookie := n.cookie
  links := (List.range n.height).map fun level => firstAt level after
  prev

/-- The linked entries of nodes that stand in this order, after a cookie and before the nodes
`rest`. -/
def weave (rest : List (Node V)) : Cookie → List (Node V) → List (Entry V)
  | _, [] => []
  | c, n :: ns => n.linked c (ns ++ rest) :: weave rest n.cookie ns

@[simp] theorem Node.name_linked (n : Node V) (c : Cookie) (ns : List (Node V)) :
    (n.linked c ns).name = n.name := rfl

@[simp] theorem Node.cookie_linked (n : Node V) (c : Cookie) (ns : List (Node V)) :
    (n.linked c ns).cookie = n.cookie := rfl

@[simp] theorem Node.prev_linked (n : Node V) (c : Cookie) (ns : List (Node V)) :
    (n.linked c ns).prev = c := rfl

@[simp] theorem Node.height_linked (n : Node V) (c : Cookie) (ns : List (Node V)) :
    (n.linked c ns).height = n.height := by
  simp [Node.linked, Entry.height]

@[simp] theorem Node.node_linked (n : Node V) (c : Cookie) (ns : List (Node V)) :
    (n.linked c ns).node = n := by
  rw [Entry.node, Node.height_linked]
  rfl

/-- The links of a node, one for each of its levels. -/
theorem Node.links_linked_getElem? (n : Node V) (c : Cookie) (ns : List (Node V)) (level : Nat) :
    (n.linked c ns).links[level]? = if level < n.height then some (firstAt level ns) else none := by
  rw [Node.linked, List.getElem?_map]
  by_cases h : level < n.height
  · rw [if_pos h, List.getElem?_range h, Option.map_some]
  · have hnone : (List.range n.height)[level]? = none := by
      rw [List.getElem?_eq_none_iff, List.length_range]
      omega
    rw [if_neg h, hnone, Option.map_none]

/-- The link of a node at one of its levels. -/
theorem Node.links_linked_getD (n : Node V) (c : Cookie) (ns : List (Node V))
    (h : level < n.height) : (n.linked c ns).links.getD level .null = firstAt level ns := by
  rw [List.getD_eq_getElem?_getD, Node.links_linked_getElem?, if_pos h, Option.getD_some]

/-- The first link of a node is that at level 0. -/
theorem Node.links_linked_headD (n : Node V) (c : Cookie) (ns : List (Node V)) (h : 1 ≤ n.height) :
    (n.linked c ns).links.headD .null = firstAt 0 ns := by
  rw [← n.links_linked_getD c ns h, List.headD_eq_head?_getD, List.head?_eq_getElem?,
    List.getD_eq_getElem?_getD]

/-- A node links on along level 0. -/
theorem Node.next_linked (n : Node V) (c : Cookie) (ns : List (Node V)) (h : 1 ≤ n.height) :
    (n.linked c ns).next = .ok (firstAt 0 ns) := by
  have hlink := n.links_linked_getElem? c ns 0
  rw [if_pos (by omega)] at hlink
  unfold Entry.next
  cases hlinks : (n.linked c ns).links with
  | nil =>
    rw [hlinks] at hlink
    cases hlink
  | cons c' links =>
    rw [hlinks, List.getElem?_cons_zero, Option.some.injEq] at hlink
    rw [hlink]

/-- A record handed back to the caller as an entry, without links. -/
def Record.unlinked (r : Record V) : Entry V := { name := r.name, value := r.value }

/-- An entry is the linked one of its node exactly when its links and its back link are right. -/
theorem Entry.linked_node_eq_iff {e : Entry V} :
    e.node.linked c ns = e ↔
      e.prev = c ∧ ∀ level < e.height, e.links[level]? = some (firstAt level ns) := by
  constructor
  · intro h
    refine ⟨by rw [← h, Node.prev_linked], fun level hlevel => ?_⟩
    rw [← h, Node.links_linked_getElem?, if_pos]
    exact hlevel
  · rintro ⟨rfl, hlinks⟩
    have hl : (e.node.linked e.prev ns).links = e.links := by
      apply List.ext_getElem?
      intro level
      rw [Node.links_linked_getElem?]
      by_cases h : level < e.height
      · rw [hlinks level h]
        exact if_pos h
      · have hnone : e.links[level]? = none := List.getElem?_eq_none_iff.2 (Nat.not_lt.1 h)
        rw [hnone]
        exact if_neg h
    calc e.node.linked e.prev ns
        = { e with links := (e.node.linked e.prev ns).links } := rfl
      _ = e := by rw [hl]

theorem weave_append (rest : List (Node V)) (c : Cookie) (as bs : List (Node V)) :
    weave rest c (as ++ bs) = weave (bs ++ rest) c as ++ weave rest (lastOf c as) bs := by
  induction as generalizing c with
  | nil => rfl
  | cons n as ih =>
    rw [List.cons_append, weave, weave, ih, List.append_assoc]
    rfl

/-- Of the nodes after it a weave shows no more than where each level enters them. -/
theorem weave_congr {rest rest' : List (Node V)}
    (h : ∀ level, firstAt level rest = firstAt level rest') (c : Cookie) (ns : List (Node V)) :
    weave rest c ns = weave rest' c ns := by
  induction ns generalizing c with
  | nil => rfl
  | cons n ns ih =>
    have hlinked : n.linked c (ns ++ rest) = n.linked c (ns ++ rest') := by
      rw [Node.linked, Node.linked]
      simp only [firstAt_append_congr ns (h _)]
    rw [weave, weave, hlinked, ih]

@[simp] theorem map_node_weave (rest : List (Node V)) (c : Cookie) (ns : List (Node V)) :
    (weave rest c ns).map Entry.node = ns := by
  induction ns generalizing c with
  | nil => rfl
  | cons n ns ih => rw [weave, List.map_cons, Node.node_linked, ih]

/-- What entries show of their nodes is read off the nodes. -/
theorem map_weave {α : Type} (f : Entry V → α) (g : Node V → α) (h : ∀ e, f e = g e.node)
    (rest : List (Node V)) (c : Cookie) (ns : List (Node V)) :
    (weave rest c ns).map f = ns.map g := by
  conv_rhs => rw [← map_node_weave rest c ns, List.map_map]
  exact List.map_congr_left fun e _ => h e

/-- A reader sees the records of the nodes. -/
theorem map_record_weave (rest : List (Node V)) (c : Cookie) (ns : List (Node V)) :
    (weave rest c ns).map Entry.record = ns.map Node.toRecord :=
  map_weave Entry.record Node.toRecord (fun _ => rfl) rest c ns

theorem map_cookie_weave (rest : List (Node V)) (c : Cookie) (ns : List (Node V)) :
    (weave rest c ns).map Entry.cookie = ns.map (·.cookie) :=
  map_weave Entry.cookie (fun n => n.cookie) (fun _ => rfl) rest c ns

theorem map_name_weave (rest : List (Node V)) (c : Cookie) (ns : List (Node V)) :
    (weave rest c ns).map Entry.name = ns.map (·.name) :=
  map_weave Entry.name (fun n => n.name) (fun _ => rfl) rest c ns

@[simp] theorem length_weave (rest : List (Node V)) (c : Cookie) (ns : List (Node V)) :
    (weave rest c ns).length = ns.length := by
  rw [← List.length_map Entry.node, map_node_weave]

/-- An entry of a weave is that of a node at its place. -/
theorem mem_weave_iff {rest : List (Node V)} {e : Entry V} :
    e ∈ weave rest c ns ↔
      ∃ as n bs, ns = as ++ n :: bs ∧ e = n.linked (lastOf c as) (bs ++ rest) := by
  constructor
  · intro h
    induction ns generalizing c with
    | nil => simp [weave] at h
    | cons n ns ih =>
      rw [weave, List.mem_cons] at h
      rcases h with rfl | h
      · exact ⟨[], n, ns, rfl, rfl⟩
      · obtain ⟨as, m, bs, rfl, rfl⟩ := ih h
        exact ⟨n :: as, m, bs, rfl, rfl⟩
  · rintro ⟨as, n, bs, rfl, rfl⟩
    rw [weave_append, weave]
    simp

/-- An entry of a weave is the linked one of some node of the list. -/
theorem node_mem_of_mem_weave {rest : List (Node V)} {e : Entry V} (h : e ∈ weave rest c ns) :
    e.node ∈ ns := by
  rw [← map_node_weave rest c ns]
  exact List.mem_map_of_mem h

/-- Every node of the list has an entry in the weave. -/
theorem exists_mem_weave {rest : List (Node V)} {n : Node V} (h : n ∈ ns) :
    ∃ e ∈ weave rest c ns, e.node = n := by
  rw [← map_node_weave rest c ns] at h
  exact List.mem_map.1 h

/-- A cookie that no node has is that of no entry of their weave. -/
theorem cookie_ne_of_mem_weave {rest : List (Node V)} {q : Cookie} (h : ∀ n ∈ ns, n.cookie ≠ q) :
    ∀ e ∈ weave rest c ns, e.cookie ≠ q :=
  fun e he => h e.node (node_mem_of_mem_weave he)

section Map

variable {V' : Type} {r : Cookie → Cookie} {f : Node V → Node V'}

/-- Where nodes get other cookies and keep their heights, a level enters them at the other cookie of
the same node. -/
theorem firstAt_map (hnull : r .null = .null) (hcookie : ∀ n, (f n).cookie = r n.cookie)
    (hheight : ∀ n, (f n).height = n.height) (level : Nat) (ns : List (Node V)) :
    firstAt level (ns.map f) = r (firstAt level ns) := by
  induction ns with
  | nil => exact hnull.symm
  | cons n ns ih =>
    rw [List.map_cons, firstAt, firstAt, hheight, hcookie, ih]
    split_ifs
    · rfl
    · rfl

theorem lastOf_map (hcookie : ∀ n, (f n).cookie = r n.cookie) (c : Cookie) (ns : List (Node V)) :
    lastOf (r c) (ns.map f) = r (lastOf c ns) := by
  induction ns generalizing c with
  | nil => rfl
  | cons n ns ih => rw [List.map_cons, lastOf, hcookie, ih, lastOf]

/-- What nodes become, the entries woven from them become, if each one does at its place. -/
theorem map_weave_linked {f' : Entry V → Entry V'} (hcookie : ∀ n, (f n).cookie = r n.cookie)
    (hlinked : ∀ n c ns, f' (n.linked c ns) = (f n).linked (r c) (ns.map f))
    (rest : List (Node V)) (c : Cookie) (ns : List (Node V)) :
    (weave rest c ns).map f' = weave (rest.map f) (r c) (ns.map f) := by
  induction ns generalizing c with
  | nil => rfl
  | cons n ns ih =>
    rw [weave, List.map_cons, List.map_cons, weave, ih, hlinked, hcookie, List.map_append]

end Map

section Select

variable {rest : List (Node V)} {p : Node V → Prop} [DecidablePred p]

/-- All entries are kept if all nodes have the property. -/
theorem filter_weave_of_forall (h : ∀ n ∈ ns, p n) :
    (weave rest c ns).filter (fun e => p e.node) = weave rest c ns :=
  List.filter_eq_self.2 fun e he => decide_eq_true (h e.node (node_mem_of_mem_weave he))

/-- No entry is kept if no node has the property. -/
theorem filter_weave_of_forall_not (h : ∀ n ∈ ns, ¬ p n) :
    (weave rest c ns).filter (fun e => p e.node) = [] :=
  List.filter_eq_nil_iff.2 fun e he hp =>
    h e.node (node_mem_of_mem_weave he) (of_decide_eq_true hp)

/-- No entry is found if no node has the property. -/
theorem find?_weave_of_forall_not (h : ∀ n ∈ ns, ¬ p n) :
    (weave rest c ns).find? (fun e => p e.node) = none :=
  List.find?_eq_none.2 fun e he hp =>
    h e.node (node_mem_of_mem_weave he) (of_decide_eq_true hp)

/-- The entry of the first node that has the property is found. -/
theorem find?_weave_append_cons {n : Node V} (has : ∀ m ∈ as, ¬ p m) (hn : p n) :
    (weave rest c (as ++ n :: bs)).find? (fun e => p e.node) =
      some (n.linked (lastOf c as) (bs ++ rest)) := by
  have hfound : decide (p (n.linked (lastOf c as) (bs ++ rest)).node) = true := by
    rw [Node.node_linked]
    exact decide_eq_true hn
  rw [weave_append, List.find?_append, find?_weave_of_forall_not has, Option.none_or, weave]
  exact List.find?_cons_of_pos hfound

end Select

/-! ## Rewriting the links -/

/-- The links of `holder` after `next level` has been put in place at each level below `height`
whose holder it is. -/
def relinked (holders : Nat → Cookie) (height : Nat) (next : Nat → Cookie) (holder : Cookie)
    (links : List Cookie) : List Cookie :=
  links.mapIdx fun level c => if level < height ∧ holders level = holder then next level else c

/-- The entry with its links rewritten. -/
def Entry.relink (holders : Nat → Cookie) (height : Nat) (next : Nat → Cookie) (e : Entry V) :
    Entry V :=
  { e with links := relinked holders height next e.cookie e.links }

variable {rest rest' : List (Node V)} {holders next : Nat → Cookie} {height : Nat}

/-- A link is rewritten if it is there and its level is to be rewritten for its holder. -/
theorem relinked_getElem? (holder : Cookie) (links : List Cookie) (level : Nat) :
    (relinked holders height next holder links)[level]? =
      if level < height ∧ holders level = holder then links[level]?.map fun _ => next level
      else links[level]? := by
  rw [relinked, List.getElem?_mapIdx]
  split_ifs with h
  · rfl
  · exact Option.map_id'

/-- Links of which none is rewritten stay. -/
theorem relinked_of_ne {holder : Cookie} (h : ∀ level < height, holders level ≠ holder)
    (links : List Cookie) : relinked holders height next holder links = links := by
  apply List.ext_getElem?
  intro level
  rw [relinked_getElem?, if_neg fun hc => h level hc.1 hc.2]

/-- Rewriting one more level. -/
theorem relinked_succ (holder : Cookie) (links : List Cookie) :
    relinked holders (height + 1) next holder links =
      if holder = holders height then (relinked holders height next holder links).set height
        (next height)
      else relinked holders height next holder links := by
  apply List.ext_getElem?
  intro level
  split_ifs with hh
  · rw [List.getElem?_set', relinked_getElem?, relinked_getElem?]
    -- The level is the new one, or what holds of it is as before.
    by_cases hl : height = level
    · subst hl
      rw [if_pos rfl, if_pos ⟨Nat.lt_succ_self _, hh.symm⟩, if_neg fun h => Nat.lt_irrefl _ h.1]
      rfl
    · have hiff : (level < height + 1 ∧ holders level = holder) ↔
          (level < height ∧ holders level = holder) :=
        ⟨fun ⟨h, hc⟩ => ⟨by omega, hc⟩, fun ⟨h, hc⟩ => ⟨by omega, hc⟩⟩
      rw [if_neg hl, if_congr hiff rfl rfl]
  · have hiff : (level < height + 1 ∧ holders level = holder) ↔
        (level < height ∧ holders level = holder) := by
      constructor
      · rintro ⟨hl, hc⟩
        refine ⟨Nat.lt_of_le_of_ne (Nat.le_of_lt_succ hl) ?_, hc⟩
        rintro rfl
        exact hh hc.symm
      · exact fun ⟨hl, hc⟩ => ⟨by omega, hc⟩
    rw [relinked_getElem?, relinked_getElem?, if_congr hiff rfl rfl]

/-- Rewriting one more level changes the link of its holder alone. -/
theorem Entry.relink_succ (e : Entry V) :
    e.relink holders (height + 1) next =
      if (e.relink holders height next).cookie = holders height then
        { e.relink holders height next with
          links := (e.relink holders height next).links.set height (next height) }
      else e.relink holders height next := by
  rw [Entry.relink, relinked_succ]
  change _ = if e.cookie = holders height then _ else _
  split_ifs
  · rfl
  · rfl

/-- What a holder of cookie `c` before the nodes `ns` has to link to when the nodes `rest` after
them give way to `rest'`: nothing new, unless it is the last holder there and the level is
rewritten. -/
theorem firstAt_append_of_rest {c : Cookie} (hc : ∀ n ∈ ns, n.cookie ≠ c)
    (hnext : level < height → next level = firstAt level rest')
    (hsame : height ≤ level → firstAt level rest = firstAt level rest') :
    (if level < height ∧ lastAt level c ns = c then next level else firstAt level (ns ++ rest)) =
      firstAt level (ns ++ rest') := by
  rcases low_or_last level ns with hlow | ⟨as, n, bs, rfl, hn, hlow⟩
  · -- The level passes none of the nodes between, so it is for `c` to link on.
    rw [lastAt_of_low hlow, firstAt_append_of_low hlow, firstAt_append_of_low hlow]
    by_cases h : level < height
    · rw [if_pos ⟨h, rfl⟩, hnext h]
    · rw [if_neg fun hc => h hc.1, hsame (by omega)]
  · -- The level passes a node between, which hides what comes after it.
    have hmem : n ∈ as ++ n :: bs := by simp
    rw [lastAt_append_cons hn hlow, if_neg fun h => hc n hmem h.2, firstAt_append_of_mem hmem hn,
      firstAt_append_of_mem hmem hn]

/-- A node before the nodes `ns` gets the links that it has before `rest'`, when at its levels below
a height it is rewritten exactly where it is the last holder. -/
theorem Node.relink_linked (n : Node V) (hne : ∀ m ∈ ns, m.cookie ≠ n.cookie)
    (hholders : ∀ level < n.height, holders level = lastAt level n.cookie ns)
    (hnext : ∀ level < height, next level = firstAt level rest')
    (hsame : ∀ level, height ≤ level → firstAt level rest = firstAt level rest') (c : Cookie) :
    (n.linked c (ns ++ rest)).relink holders height next = n.linked c (ns ++ rest') := by
  have hlinks : ((n.linked c (ns ++ rest)).relink holders height next).links =
      (n.linked c (ns ++ rest')).links := by
    apply List.ext_getElem?
    intro level
    rw [Entry.relink, relinked_getElem?, Node.links_linked_getElem?, Node.links_linked_getElem?]
    by_cases hlevel : level < n.height
    · have hlink := firstAt_append_of_rest hne (hnext level) (hsame level)
      rw [if_pos hlevel, if_pos hlevel, Option.map_some, Node.cookie_linked, hholders level hlevel,
        ← hlink]
      split_ifs
      · rfl
      · rfl
    · rw [if_neg hlevel, if_neg hlevel, Option.map_none, ite_self]
  calc (n.linked c (ns ++ rest)).relink holders height next
      = { n.linked c (ns ++ rest') with
          links := ((n.linked c (ns ++ rest)).relink holders height next).links } := rfl
    _ = n.linked c (ns ++ rest') := by rw [hlinks]

/-- Rewriting the last links before a place at the levels below a height follows the nodes after
that place from `rest` to `rest'`, if these agree at the other levels. `q` is what stands before all
nodes. -/
theorem weave_map_relink {q : Nat → Cookie}
    (hholders : ∀ level, holders level = lastAt level (q level) ns)
    (hq : ∀ level, ∀ n ∈ ns, n.cookie ≠ q level) (hns : (ns.map (·.cookie)).Nodup)
    (hnext : ∀ level < height, next level = firstAt level rest')
    (hsame : ∀ level, height ≤ level → firstAt level rest = firstAt level rest') :
    (weave rest c ns).map (Entry.relink holders height next) = weave rest' c ns := by
  -- By induction on the nodes. At its own levels the first node stands before the others in place
  -- of `q`, which is why `q` may differ from level to level.
  induction ns generalizing c q with
  | nil => rfl
  | cons n ns ih =>
    rw [List.map_cons, List.nodup_cons] at hns
    have hne : ∀ m ∈ ns, m.cookie ≠ n.cookie := fun m hm hc =>
      hns.1 (List.mem_map.2 ⟨m, hm, hc⟩)
    have hstep : ∀ level, holders level =
        lastAt level (if level < n.height then n.cookie else q level) ns := by
      intro level
      rw [hholders level, lastAt]
    have hown : ∀ level < n.height, holders level = lastAt level n.cookie ns := by
      intro level hlevel
      rw [hstep level, if_pos hlevel]
    have htail : ∀ level, ∀ m ∈ ns, m.cookie ≠ if level < n.height then n.cookie else q level := by
      intro level m hm
      split_ifs
      · exact hne m hm
      · exact hq level m (by simp [hm])
    rw [weave, weave, List.map_cons, n.relink_linked hne hown hnext hsame, ih hstep htail hns.2]

/-- Rewriting the links of other holders changes nothing. -/
theorem map_relink_of_ne {es : List (Entry V)}
    (h : ∀ e ∈ es, ∀ level < height, holders level ≠ e.cookie) :
    es.map (Entry.relink holders height next) = es := by
  conv_rhs => rw [← List.map_id es]
  refine List.map_congr_left fun e he => ?_
  rw [Entry.relink, relinked_of_ne (h e he)]
  rfl

/-- Another cookie before the first of some nodes changes the back link of that node alone. -/
theorem weave_map_prev {n : Node V} {q : Cookie} (hns : ((n :: ns).map (·.cookie)).Nodup) :
    ((weave rest c (n :: ns)).map fun e =>
      if e.cookie = n.cookie then { e with prev := q } else e) = weave rest q (n :: ns) := by
  rw [List.map_cons, List.nodup_cons] at hns
  rw [weave, weave, List.map_cons, if_pos (Node.cookie_linked ..)]
  have hne : ∀ m ∈ ns, m.cookie ≠ n.cookie := fun m hm hc => hns.1 (List.mem_map.2 ⟨m, hm, hc⟩)
  rw [map_if_cookie_of_ne (cookie_ne_of_mem_weave hne)]
  rfl

end NameIndex
