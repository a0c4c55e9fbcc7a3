import Mathlib.Data.List.TakeWhile
import NameIndex.Cursor
import NameIndex.Proofs.Query

/-!
# Cursors of a threaded index

A cursor of a threaded index stands for some nodes in a row (`Cursor.over`). The entry that it gives
out at a side is the one at that end of their weave, and it stands for the nodes left over after
that (`Threaded.pop_eq`). So a cursor that is asked on and on comes to an end, and gives out the
entries from its side on (`Threaded.popWhile_eq`).
-/

namespace NameIndex

variable {G V : Type}

/-- The cursor for some nodes in a row. -/
def Cursor.over (ns : List (Node V)) : Cursor := ⟨firstAt 0 ns, lastOf .null ns⟩

namespace Side

variable {α β : Type}

/-- The item at a side of a list. -/
def end? : Side → List α → Option α
  | front, xs => xs.head?
  | back, xs => xs.getLast?

/-- The other items of a list. -/
def others : Side → List α → List α
  | front, xs => xs.tail
  | back, xs => xs.dropLast

/-- The items of a list from a side on. -/
def order : Side → List α → List α
  | front, xs => xs
  | back, xs => xs.reverse

/-- The item at a side comes first from that side on. -/
theorem order_eq (side : Side) {xs : List α} {x : α} (h : side.end? xs = some x) :
    side.order xs = x :: side.order (side.others xs) := by
  cases side with
  | front =>
    obtain ⟨xs, rfl⟩ := List.head?_eq_some_iff.1 h
    rfl
  | back =>
    obtain ⟨xs, rfl⟩ := List.getLast?_eq_some_iff.1 h
    change (xs ++ [x]).reverse = x :: (xs ++ [x]).dropLast.reverse
    rw [List.dropLast_concat, List.reverse_append]
    rfl

theorem end?_eq_none_iff (side : Side) {xs : List α} : side.end? xs = none ↔ xs = [] := by
  cases side with
  | front => exact List.head?_eq_none_iff
  | back => exact List.getLast?_eq_none_iff

theorem length_others (side : Side) (xs : List α) : (side.others xs).length = xs.length - 1 := by
  cases side with
  | front => exact List.length_tail
  | back => exact List.length_dropLast

/-- The items at the given sides of a list in turn, and those left over. -/
def take : List Side → List α → List (Option α) × List α
  | [], xs => ([], xs)
  | side :: sides, xs => (side.end? xs :: (take sides (side.others xs)).1,
      (take sides (side.others xs)).2)

theorem end?_map (side : Side) (f : α → β) (xs : List α) :
    side.end? (xs.map f) = (side.end? xs).map f := by
  cases side with
  | front => exact List.head?_map
  | back => exact List.getLast?_map

theorem others_map (side : Side) (f : α → β) (xs : List α) :
    side.others (xs.map f) = (side.others xs).map f := by
  cases side with
  | front => exact List.map_tail.symm
  | back => exact List.map_dropLast.symm

theorem order_map (side : Side) (f : α → β) (xs : List α) :
    side.order (xs.map f) = (side.order xs).map f := by
  cases side with
  | front => rfl
  | back => exact List.map_reverse.symm

theorem take_map (sides : List Side) (f : α → β) (xs : List α) :
    (take sides (xs.map f)).1 = (take sides xs).1.map (Option.map f) := by
  induction sides generalizing xs with
  | nil => rfl
  | cons side sides ih =>
    rw [take, take, end?_map, others_map, ih]
    rfl

end Side

/-- The last cookie is the given one if there is no node, and that of a node otherwise. -/
theorem lastOf_eq_or_mem (c : Cookie) (ns : List (Node V)) :
    (ns = [] ∧ lastOf c ns = c) ∨ ∃ n ∈ ns, lastOf c ns = n.cookie := by
  rcases List.eq_nil_or_concat ns with rfl | ⟨as, n, rfl⟩
  · exact .inl ⟨rfl, rfl⟩
  · rw [List.concat_eq_append]
    exact .inr ⟨n, by simp, lastOf_concat c as n⟩

namespace Index.Threaded

variable {ix : Index G V} {ns pre mid post : List (Node V)} {n : Node V} {name : Name}

/-- The cursor from a place on. -/
theorem between_eq (h : ix.Threaded (pre ++ post)) :
    Cursor.between (firstAt 0 post) ix.tail = .over post := by
  cases post with
  | nil => exact if_pos (.inl rfl)
  | cons n post =>
    have htail : ix.tail = lastOf n.cookie post := by rw [h.tail, lastOf_append]; rfl
    have hlast : lastOf n.cookie post ≠ .null := by
      rcases lastOf_eq_or_mem n.cookie post with ⟨-, hlast⟩ | ⟨m, hm, hlast⟩
      · rw [hlast]
        exact h.cookie_ne_null
      · rw [hlast]
        exact h.ne_null (by simp [hm])
    rw [Cursor.between, Cursor.over, h.firstAt_zero, htail,
      if_neg (not_or.2 ⟨h.cookie_ne_null, hlast⟩)]
    rfl

theorem cursor_eq (h : ix.Threaded ns) : ix.cursor = .over ns := by
  rw [cursor, h.front_eq]
  exact (show ix.Threaded ([] ++ ns) from h).between_eq

theorem cursorFrom_eq (h : ix.Threaded (pre ++ post)) (hpre : ∀ n ∈ pre, n.name < name)
    (hpost : ∀ n ∈ post, ¬ n.name < name) : ix.cursorFrom name = .ok (.over post) := by
  rw [cursorFrom, h.bracket_eq hpre hpost, ok_bind]
  exact congrArg Except.ok h.between_eq

/-- A node with others after it is not the last one. -/
theorem ne_lastOf (h : ix.Threaded (pre ++ n :: mid ++ post)) (hmid : mid ≠ []) :
    n.cookie ≠ lastOf n.cookie mid := by
  rw [List.append_assoc, List.cons_append] at h
  rcases lastOf_eq_or_mem n.cookie mid with ⟨hnil, -⟩ | ⟨m, hm, hlast⟩
  · exact absurd hnil hmid
  · rw [hlast]
    exact (h.cookie_ne m (by simp [hm])).symm

/-- A cursor gives out the entry at the front of the nodes that it stands for. -/
theorem pop_front (h : ix.Threaded (pre ++ n :: mid ++ post)) :
    ix.pop .front (.over (n :: mid)) =
      .ok (some (n.linked (lastOf .null pre) (mid ++ post)), .over mid) := by
  have hnode : ix.Threaded (pre ++ n :: (mid ++ post)) := by
    rwa [List.append_assoc, List.cons_append] at h
  have hheight := hnode.height_bounds.1
  rw [pop, Cursor.over, firstAt_cons_of_lt hheight]
  dsimp only
  rw [hnode.follow_cookie, ok_bind]
  dsimp only
  -- The cursor is empty after its only node; otherwise its ends are different nodes.
  cases mid with
  | nil => exact if_pos rfl
  | cons m mid =>
    have hm := (hnode.heights m (by simp)).1
    have hne : n.cookie ≠ lastOf .null (n :: m :: mid) := h.ne_lastOf (List.cons_ne_nil m mid)
    rw [if_neg hne, n.next_linked _ _ hheight, ok_bind, List.cons_append,
      firstAt_cons_of_lt (by omega), Cursor.over, firstAt_cons_of_lt (by omega)]
    rfl

/-- A cursor gives out the entry at the back of the nodes that it stands for. -/
theorem pop_back (h : ix.Threaded (pre ++ (mid ++ [n]) ++ post)) :
    ix.pop .back (.over (mid ++ [n])) =
      .ok (some (n.linked (lastOf (lastOf .null pre) mid) post), .over mid) := by
  have hnode : ix.Threaded (pre ++ mid ++ n :: post) := by
    simpa using h
  have hfollow : ix.follow n.cookie =
      .ok (some (n.linked (lastOf (lastOf .null pre) mid) post)) := by
    rw [hnode.follow_cookie, lastOf_append]
  rw [pop, Cursor.over, lastOf_concat]
  dsimp only
  rw [hfollow, ok_bind]
  dsimp only
  cases mid with
  | nil =>
    have hfirst : firstAt 0 [n] = n.cookie := firstAt_cons_of_lt hnode.height_bounds.1
    exact if_pos hfirst
  | cons m mid =>
    have hm := (hnode.heights m (by simp)).1
    have hne : m.cookie ≠ n.cookie := by
      have hlayout : ix.Threaded (pre ++ m :: (mid ++ [n]) ++ post) := by simpa using h
      have hlast := hlayout.ne_lastOf (by simp)
      rwa [lastOf_concat] at hlast
    rw [List.cons_append, firstAt_cons_of_lt (by omega), if_neg hne, Cursor.over,
      firstAt_cons_of_lt (by omega)]
    rfl

/-- A cursor gives out the entry at a side of the nodes that it stands for. -/
theorem pop_eq (h : ix.Threaded (pre ++ mid ++ post)) (side : Side) :
    ix.pop side (.over mid) = .ok (side.end? (weave post (lastOf .null pre) mid),
      .over (side.others mid)) := by
  cases side with
  | front =>
    cases mid with
    | nil => rfl
    | cons n mid => exact h.pop_front
  | back =>
    rcases List.eq_nil_or_concat mid with rfl | ⟨mid, n, rfl⟩
    · rfl
    · rw [List.concat_eq_append] at h ⊢
      rw [h.pop_back, Side.end?, Side.others, weave_concat, List.getLast?_concat,
        List.dropLast_concat]

/-- The nodes left over by a side are again nodes in a row, with the same links. -/
theorem exists_others (side : Side) (pre mid post : List (Node V)) :
    ∃ pre' post', pre' ++ side.others mid ++ post' = pre ++ mid ++ post ∧
      weave post' (lastOf .null pre') (side.others mid) =
        side.others (weave post (lastOf .null pre) mid) := by
  cases side with
  | front =>
    cases mid with
    | nil => exact ⟨pre, post, rfl, rfl⟩
    | cons n mid =>
      refine ⟨pre ++ [n], post, by simp [Side.others], ?_⟩
      rw [lastOf_concat]
      rfl
  | back =>
    rcases List.eq_nil_or_concat mid with rfl | ⟨mid, n, rfl⟩
    · exact ⟨pre, post, rfl, rfl⟩
    · refine ⟨pre, n :: post, by simp [Side.others], ?_⟩
      rw [List.concat_eq_append, Side.others, Side.others, List.dropLast_concat, weave_concat,
        List.dropLast_concat]

/-- A cursor gives out the entries at the given sides in turn. -/
theorem popEach_eq (h : ix.Threaded (pre ++ mid ++ post)) (sides : List Side) :
    ix.popEach sides (.over mid) =
      .ok ((Side.take sides (weave post (lastOf .null pre) mid)).1,
        .over (Side.take sides mid).2) := by
  induction sides generalizing pre mid post with
  | nil => rfl
  | cons side sides ih =>
    obtain ⟨pre', post', hns, hweave⟩ := exists_others side pre mid post
    rw [popEach, h.pop_eq, ok_bind]
    dsimp only
    have hrest : ix.Threaded (pre' ++ side.others mid ++ post') := by rwa [hns]
    rw [ih hrest, hweave]
    rfl

/-- A cursor gives out the entries from its side on as long as they are to be kept. It comes to an
end within a step more than there are entries. -/
theorem popWhile_eq (h : ix.Threaded (pre ++ mid ++ post)) (side : Side) (keep : Entry V → Bool)
    {fuel : Nat} (hfuel : mid.length < fuel) :
    ix.popWhile side keep fuel (.over mid) =
      .ok ((side.order (weave post (lastOf .null pre) mid)).takeWhile keep) := by
  -- By induction on the steps left; each entry given out leaves fewer nodes to stand for.
  induction fuel generalizing pre mid post with
  | zero => omega
  | succ fuel ih =>
    rw [popWhile, h.pop_eq, ok_bind]
    cases hend : side.end? (weave post (lastOf .null pre) mid) with
    | none =>
      rw [Side.end?_eq_none_iff] at hend
      rw [hend]
      cases side with
      | front => rfl
      | back => rfl
    | some e =>
      obtain ⟨pre', post', hns, hweave⟩ := exists_others side pre mid post
      have hpos : 0 < mid.length := by
        rw [← length_weave post (lastOf .null pre) mid, List.length_pos_iff]
        intro hnil
        rw [side.end?_eq_none_iff.2 hnil] at hend
        cases hend
      have hshort : (side.others mid).length < fuel := by
        rw [Side.length_others]
        omega
      have hrest : ix.Threaded (pre' ++ side.others mid ++ post') := by rwa [hns]
      dsimp only
      rw [ih hrest hshort, hweave, side.order_eq hend, List.takeWhile_cons]
      split_ifs
      · rfl
      · rfl

/-- All nodes are fewer than the steps that a cursor is given. -/
theorem popAll_eq (h : ix.Threaded (pre ++ post)) (side : Side) :
    ix.popAll side (.over post) = .ok (side.order (weave [] (lastOf .null pre) post)) := by
  have hlayout : ix.Threaded (pre ++ post ++ []) := by rwa [List.append_nil]
  have hlen := h.length_le_capacity
  rw [List.length_append] at hlen
  rw [popAll, hlayout.popWhile_eq side _ (by omega), List.takeWhile_eq_self_iff.2 fun _ _ => rfl]

/-- The entries in name order. -/
theorem entries_eq (h : ix.Threaded ns) : ix.entries = .ok (weave [] .null ns) := by
  rw [entries, h.cursor_eq]
  exact (show ix.Threaded ([] ++ ns) from h).popAll_eq .front

/-- The entries whose name begins with a stem, as far as they follow each other. -/
theorem startingWith_eq {stem : Name} (h : ix.Threaded (pre ++ post))
    (hpre : ∀ n ∈ pre, n.name < stem) (hpost : ∀ n ∈ post, ¬ n.name < stem) :
    ix.startingWith stem = .ok ((weave [] (lastOf .null pre) post).takeWhile fun e =>
      stem.isPrefixOf e.name) := by
  have hlayout : ix.Threaded (pre ++ post ++ []) := by rwa [List.append_nil]
  have hlen := h.length_le_capacity
  rw [List.length_append] at hlen
  rw [startingWith, h.cursorFrom_eq hpre hpost, ok_bind, hlayout.popWhile_eq _ _ (by omega)]
  rfl

end Index.Threaded

end NameIndex
