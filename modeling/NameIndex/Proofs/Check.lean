import NameIndex.Index.Check
import NameIndex.Proofs.WellFormed

/-!
# The check is exact

An index that passes its check is laid out by the entries that the check has passed
(`exists_layout_of_check`), every laid-out index passes (`Layout.check_eq`), and on all others the
check stops with a contradiction (`check_sound`). It follows level 0 only. Whether the other levels
are right it can tell because at every entry, each level of the entry's height has to lead there
from the last entry of that height; and that no entry is stored off the levels follows by counting.
-/

namespace NameIndex

variable {G V : Type}

/-- What a walk knows after the given nodes of an index with some number of levels. -/
def Walk.after (levels : Nat) (ns : List (Node V)) : Walk where
  last := (List.range levels).map fun level => lastAt level .null ns
  prev := lastOf .null ns
  seen := ns.length

/-- The last entries passed, after a further one of some height. -/
def passed (c : Cookie) (height : Nat) (last : List Cookie) : List Cookie :=
  last.mapIdx fun level d => if level < height then c else d

theorem passed_getElem? (c : Cookie) (height : Nat) (last : List Cookie) (level : Nat) :
    (passed c height last)[level]? = last[level]?.map fun d => if level < height then c else d :=
  List.getElem?_mapIdx

theorem passed_zero (c : Cookie) (last : List Cookie) : passed c 0 last = last := by
  apply List.ext_getElem?
  intro level
  rw [passed_getElem?]
  exact Option.map_id'

theorem passed_succ (c : Cookie) (height : Nat) (last : List Cookie) :
    passed c (height + 1) last = (passed c height last).set height c := by
  apply List.ext_getElem?
  intro level
  rw [List.getElem?_set', passed_getElem?, passed_getElem?]
  cases last[level]? with
  | none => split_ifs <;> rfl
  | some d =>
    have hiff : level < height + 1 ↔ height = level ∨ level < height := by omega
    simp only [Option.map_some, hiff, ite_or]
    split_ifs <;> rfl

/-- The levels from a height up have passed no further entry. -/
theorem passed_getD (c : Cookie) (height : Nat) (last : List Cookie) :
    (passed c height last).getD height .null = last.getD height .null := by
  rw [List.getD_eq_getElem?_getD, List.getD_eq_getElem?_getD, passed_getElem?]
  simp only [Nat.lt_irrefl, if_false, Option.map_id']

namespace Walk

variable {levels : Nat} {ns : List (Node V)}

theorem last_getD_after {level : Nat} (h : level < levels) :
    (after levels ns).last.getD level .null = lastAt level .null ns := by
  rw [after, List.getD_eq_getElem?_getD, List.getElem?_map, List.getElem?_range h]
  rfl

theorem length_last_after : (after levels ns).last.length = levels := by
  rw [after, List.length_map, List.length_range]

/-- A walk starts before all nodes. -/
theorem start_eq (heads : List Cookie) :
    (⟨heads.map fun _ => .null, .null, 0⟩ : Walk) = after heads.length ([] : List (Node V)) := by
  have hlast : (heads.map fun _ => Cookie.null) = (List.range heads.length).map fun _ => .null := by
    rw [List.map_const', List.map_const', List.length_range]
  rw [hlast]
  rfl

/-- Passing a node. -/
theorem after_concat (n : Node V) :
    after levels (ns ++ [n]) = ⟨passed n.cookie n.height (after levels ns).last, n.cookie,
      (after levels ns).seen + 1⟩ := by
  have hlast : (after levels (ns ++ [n])).last =
      passed n.cookie n.height (after levels ns).last := by
    apply List.ext_getElem?
    intro level
    rw [passed_getElem?, after, after, List.getElem?_map, List.getElem?_map]
    rcases Nat.lt_or_ge level levels with h | h
    · rw [List.getElem?_range h, Option.map_some, Option.map_some, Option.map_some, lastAt_append]
      rfl
    · have hnone : (List.range levels)[level]? = none := by
        rw [List.getElem?_eq_none_iff, List.length_range]
        exact h
      rw [hnone]
      rfl
  rw [← hlast, after, lastOf_append, List.length_append]
  rfl

end Walk

namespace Index

variable {ix : Index G V}

/-- Passing an entry on one more level. -/
theorem checkLevels_succ (c : Cookie) (height : Nat) (last : List Cookie) :
    ix.checkLevels c (height + 1) last = do
      let last ← ix.checkLevels c height last
      let next ← ix.successor (last.getD height .null) height
      expect (next = c) (.skipped height c)
      return last.set height c := by
  rw [checkLevels, checkLevels, List.range_succ, List.foldlM_append]
  simp only [List.foldlM_cons, List.foldlM_nil, bind_pure]

/-- The levels below a height let an entry pass when each leads to it. -/
theorem checkLevels_eq_ok_iff {c : Cookie} {height : Nat} {last last' : List Cookie} :
    ix.checkLevels c height last = .ok last' ↔
      (∀ level < height, ix.successor (last.getD level .null) level = .ok c) ∧
        passed c height last = last' := by
  -- By induction on the levels; a level leads on from what was passed there before this entry.
  induction height generalizing last' with
  | zero =>
    rw [passed_zero]
    exact ⟨fun h => ⟨by omega, Except.ok.inj h⟩, fun h => congrArg Except.ok h.2⟩
  | succ height ih =>
    rw [checkLevels_succ, bind_eq_ok_iff]
    constructor
    · rintro ⟨last₁, hlast₁, h⟩
      obtain ⟨hlevels, rfl⟩ := ih.1 hlast₁
      obtain ⟨next, hnext, h⟩ := bind_eq_ok_iff.1 h
      obtain ⟨_, hexpect, h⟩ := bind_eq_ok_iff.1 h
      obtain rfl := expect_eq_ok_iff.1 hexpect
      rw [passed_getD] at hnext
      refine ⟨fun level hlevel => ?_, by rw [passed_succ]; exact Except.ok.inj h⟩
      rcases Nat.lt_succ_iff_lt_or_eq.1 hlevel with hlevel | rfl
      · exact hlevels level hlevel
      · exact hnext
    · rintro ⟨hlevels, rfl⟩
      refine ⟨_, ih.2 ⟨fun level hlevel => hlevels level (by omega), rfl⟩, ?_⟩
      rw [passed_getD, hlevels height (by omega), ok_bind, expect_pos rfl, passed_succ]
      rfl

/-- Checks that the name of an entry comes after that of the entry last passed, if there is one. -/
def checkOrder (ix : Index G V) (before c : Cookie) (e : Entry V) : Except Fault Unit :=
  if before = .null then .ok ()
  else do expect ((← ix.resolve before).name < e.name) (.outOfOrder c)

/-- An entry is passed after four checks in turn. -/
theorem checkEntry_eq (w : Walk) (c : Cookie) (e : Entry V) :
    ix.checkEntry w c e = do
      expect (e.height ≠ 0 ∧ e.height ≤ ix.heads.length) (.wrongHeight c e.height)
      expect (e.prev = w.prev) (.wrongPrev c e.prev w.prev)
      ix.checkOrder w.prev c e
      let last ← ix.checkLevels c e.height w.last
      return ⟨last, c, w.seen + 1⟩ := by
  rw [checkEntry, checkOrder]
  by_cases h : w.prev = .null
  · simp only [h, ne_eq, not_true_eq_false, if_true, if_false, ok_bind]
  · simp only [h, ne_eq, not_false_eq_true, if_true, if_false, bind_assoc]

theorem checkOrder_eq_ok_iff {before c : Cookie} {e : Entry V} {u : Unit} :
    ix.checkOrder before c e = .ok u ↔
      (before ≠ .null → ∃ e', ix.resolve before = .ok e' ∧ e'.name < e.name) := by
  rw [checkOrder]
  split_ifs with h
  · exact ⟨fun _ hne => absurd h hne, fun _ => rfl⟩
  · rw [bind_eq_ok_iff]
    simp only [expect_eq_ok_iff]
    exact ⟨fun hex _ => hex, fun himp => himp h⟩

/-- What it takes to pass an entry. -/
theorem checkEntry_eq_ok_iff {w w' : Walk} {c : Cookie} {e : Entry V} :
    ix.checkEntry w c e = .ok w' ↔ (e.height ≠ 0 ∧ e.height ≤ ix.heads.length) ∧ e.prev = w.prev ∧
      (w.prev ≠ .null → ∃ e', ix.resolve w.prev = .ok e' ∧ e'.name < e.name) ∧
      (∀ level < e.height, ix.successor (w.last.getD level .null) level = .ok c) ∧
      ⟨passed c e.height w.last, c, w.seen + 1⟩ = w' := by
  rw [checkEntry_eq]
  constructor
  · intro h
    obtain ⟨_, hheight, h⟩ := bind_eq_ok_iff.1 h
    obtain ⟨_, hprev, h⟩ := bind_eq_ok_iff.1 h
    obtain ⟨_, horder, h⟩ := bind_eq_ok_iff.1 h
    obtain ⟨last, hlast, h⟩ := bind_eq_ok_iff.1 h
    obtain ⟨hlevels, rfl⟩ := checkLevels_eq_ok_iff.1 hlast
    exact ⟨expect_eq_ok_iff.1 hheight, expect_eq_ok_iff.1 hprev, checkOrder_eq_ok_iff.1 horder,
      hlevels, Except.ok.inj h⟩
  · rintro ⟨hheight, hprev, horder, hlevels, rfl⟩
    rw [expect_pos hheight, ok_bind, expect_pos hprev, ok_bind,
      checkOrder_eq_ok_iff (u := ()).2 horder, ok_bind, checkLevels_eq_ok_iff.2 ⟨hlevels, rfl⟩]
    rfl

theorem resolve_eq_ok_iff {c : Cookie} {e : Entry V} :
    ix.resolve c = .ok e ↔ ix.table.get? c = some e := by
  rw [resolve]
  cases ix.table.get? c with
  | none => simp
  | some e' => simp

/-- A link followed is a link of the entry. -/
theorem links_of_successor {c next : Cookie} {e : Entry V} {level : Nat} (hc : c ≠ .null)
    (hget : ix.table.get? c = some e) (h : ix.successor c level = .ok next) :
    e.links[level]? = some next := by
  rw [successor, if_neg hc, resolve, hget, ok_bind] at h
  cases hlink : e.links[level]? with
  | none =>
    rw [hlink] at h
    cases h
  | some c' =>
    rw [hlink] at h
    rw [Except.ok.inj h]

/-- The first cookie of a level is a head. -/
theorem heads_of_successor {next : Cookie} {level : Nat} (h : ix.successor .null level = .ok next) :
    ix.heads[level]? = some next := by
  rw [successor, if_pos rfl] at h
  cases hhead : ix.heads[level]? with
  | none =>
    rw [hhead] at h
    cases h
  | some c =>
    rw [hhead] at h
    rw [Except.ok.inj h]

/-- What comes after a holder is a head, or a link of the holder's entry. -/
theorem successor_eq_ok_iff {holder next : Cookie} {level : Nat} :
    ix.successor holder level = .ok next ↔
      (holder = .null ∧ ix.heads[level]? = some next) ∨
        (holder ≠ .null ∧ ∃ e, ix.table.get? holder = some e ∧ e.links[level]? = some next) := by
  by_cases hnull : holder = .null
  · subst hnull
    refine ⟨fun h => .inl ⟨rfl, heads_of_successor h⟩, ?_⟩
    rintro (⟨-, hhead⟩ | ⟨hne, -⟩)
    · rw [successor, if_pos rfl, hhead]
    · exact absurd rfl hne
  · constructor
    · intro h
      have hsteps := h
      rw [successor, if_neg hnull] at hsteps
      obtain ⟨e, he, -⟩ := bind_eq_ok_iff.1 hsteps
      have hget := resolve_eq_ok_iff.1 he
      exact .inr ⟨hnull, e, hget, links_of_successor hnull hget h⟩
    · rintro (⟨hnull', -⟩ | ⟨-, e, hget, hlink⟩)
      · exact absurd hnull' hnull
      · rw [successor, if_neg hnull, resolve, hget, ok_bind, hlink]

/-- A walk that ends is at its end, or passes an entry and ends. -/
theorem walk_cases {room : Nat} {w w' : Walk} {c : Cookie} (h : ix.walk room w c = .ok w') :
    (c = .null ∧ w = w') ∨ ∃ e w₁ room' next, ix.table.get? c = some e ∧
      ix.checkEntry w c e = .ok w₁ ∧ room = room' + 1 ∧ e.next = .ok next ∧
      ix.walk room' w₁ next = .ok w' := by
  unfold walk at h
  split_ifs at h with hc
  · exact .inl ⟨hc, Except.ok.inj h⟩
  · obtain ⟨e, he, h⟩ := bind_eq_ok_iff.1 h
    obtain ⟨w₁, hw₁, h⟩ := bind_eq_ok_iff.1 h
    cases room with
    | zero => cases h
    | succ room' =>
      obtain ⟨next, hnext, h⟩ := bind_eq_ok_iff.1 h
      exact .inr ⟨e, w₁, room', next, resolve_eq_ok_iff.1 he, hw₁, rfl, hnext, h⟩

theorem checkEnds_eq_ok_iff {last : List Cookie} :
    ix.checkEnds last = .ok () ↔
      ∀ level < last.length, ix.successor (last.getD level .null) level = .ok .null := by
  rw [checkEnds, forM_eq_ok_iff]
  simp only [List.mem_range, bind_eq_ok_iff, expect_eq_ok_iff, exists_eq_right]

theorem checkIssued_eq_ok_iff :
    ix.checkIssued = .ok () ↔
      ∀ e ∈ ix.table.live, e.cookie ≠ .null ∧ e.cookie.val ≤ ix.lastCookie := by
  rw [checkIssued, forM_eq_ok_iff]
  simp only [expect_eq_ok_iff]

/-- What it takes to pass the check. -/
theorem check_eq_ok_iff_walk {n : Nat} :
    ix.check = .ok n ↔ ix.heads.length ≤ maxLevels ∧ ∃ w,
      ix.walk ix.count ⟨ix.heads.map fun _ => .null, .null, 0⟩ ix.front = .ok w ∧
      (∀ level < w.last.length, ix.successor (w.last.getD level .null) level = .ok .null) ∧
      ix.tail = w.prev ∧ w.seen = ix.count ∧ ix.table.live.length = w.seen ∧
      (∀ e ∈ ix.table.live, e.cookie ≠ .null ∧ e.cookie.val ≤ ix.lastCookie) ∧ w.seen = n := by
  unfold check
  constructor
  · intro h
    obtain ⟨_, hlevels, h⟩ := bind_eq_ok_iff.1 h
    obtain ⟨w, hwalk, h⟩ := bind_eq_ok_iff.1 h
    obtain ⟨_, hends, h⟩ := bind_eq_ok_iff.1 h
    obtain ⟨_, htail, h⟩ := bind_eq_ok_iff.1 h
    obtain ⟨_, hseen, h⟩ := bind_eq_ok_iff.1 h
    obtain ⟨_, hstored, h⟩ := bind_eq_ok_iff.1 h
    obtain ⟨_, hissued, h⟩ := bind_eq_ok_iff.1 h
    exact ⟨expect_eq_ok_iff.1 hlevels, w, hwalk, checkEnds_eq_ok_iff.1 hends,
      expect_eq_ok_iff.1 htail, expect_eq_ok_iff.1 hseen, expect_eq_ok_iff.1 hstored,
      checkIssued_eq_ok_iff.1 hissued, Except.ok.inj h⟩
  · rintro ⟨hlevels, w, hwalk, hends, htail, hseen, hstored, hissued, rfl⟩
    rw [expect_pos hlevels, ok_bind]
    dsimp only
    rw [hwalk, ok_bind, checkEnds_eq_ok_iff.2 hends, ok_bind, expect_pos htail, ok_bind,
      expect_pos hseen, ok_bind, expect_pos hstored, ok_bind, checkIssued_eq_ok_iff.2 hissued]
    rfl

/-! ## What a walk finds out -/

/-- What a walk knows of the entries that it has passed. -/
structure Walked (ix : Index G V) (es : List (Entry V)) : Prop where
  /-- They are found under their cookies. -/
  found : ∀ e ∈ es, e.cookie ≠ .null ∧ ix.table.get? e.cookie = some e
  /-- They have a level, and no more levels than the index. -/
  heights : ∀ e ∈ es, 1 ≤ e.height ∧ e.height ≤ ix.heads.length
  /-- Their names ascend. -/
  sorted : es.Pairwise fun a b => a.name < b.name
  /-- Each points back to the one before it. -/
  back : LinkedBack .null es (lastOf .null (es.map Entry.node))
  /-- All levels of each lead to it from the last entry of that height. -/
  levels : ∀ as e bs, es = as ++ e :: bs → ∀ level < e.height,
    ix.successor (lastAt level .null (as.map Entry.node)) level = .ok e.cookie

namespace Walked

variable {es : List (Entry V)}

theorem nil (ix : Index G V) : ix.Walked [] where
  found := fun _ he => absurd he List.not_mem_nil
  heights := fun _ he => absurd he List.not_mem_nil
  sorted := .nil
  back := rfl
  levels := fun as e bs h => by simp at h

/-- An entry that passes the checks comes after all entries passed before. -/
theorem lt_of_last (h : ix.Walked es) {e : Entry V}
    (horder : lastOf .null (es.map Entry.node) ≠ .null →
      ∃ e', ix.resolve (lastOf .null (es.map Entry.node)) = .ok e' ∧ e'.name < e.name) :
    ∀ a ∈ es, a.name < e.name := by
  rcases List.eq_nil_or_concat es with rfl | ⟨as, l, rfl⟩
  · simp
  · rw [List.concat_eq_append] at h horder ⊢
    obtain ⟨hl, hget⟩ := h.found l (by simp)
    rw [List.map_append, List.map_singleton, lastOf_append, lastOf, lastOf] at horder
    obtain ⟨e', he', hlt⟩ := horder hl
    obtain rfl : l = e' := Option.some.inj (hget.symm.trans (resolve_eq_ok_iff.1 he'))
    rw [List.forall_mem_append, List.forall_mem_singleton]
    refine ⟨fun a ha => ?_, hlt⟩
    exact List.lt_trans ((List.pairwise_append.1 h.sorted).2.2 a ha l (by simp)) hlt

/-- Passing an entry. -/
theorem concat (h : ix.Walked es) {c : Cookie} {e : Entry V} {w : Walk}
    (hget : ix.table.get? c = some e)
    (hcheck : ix.checkEntry (.after ix.heads.length (es.map Entry.node)) c e = .ok w) :
    ix.Walked (es ++ [e]) ∧ w = .after ix.heads.length ((es ++ [e]).map Entry.node) := by
  obtain ⟨hheight, hprev, horder, hlevels, rfl⟩ := checkEntry_eq_ok_iff.1 hcheck
  obtain ⟨hc, -, rfl⟩ := CookieTable.get?_eq_some_iff.1 hget
  refine ⟨⟨?_, ?_, ?_, ?_, ?_⟩, ?_⟩
  · rw [List.forall_mem_append, List.forall_mem_singleton]
    exact ⟨h.found, hc, hget⟩
  · rw [List.forall_mem_append, List.forall_mem_singleton]
    exact ⟨h.heights, by omega, hheight.2⟩
  · rw [List.pairwise_append]
    refine ⟨h.sorted, List.pairwise_singleton _ _, fun a ha b hb => ?_⟩
    rw [List.mem_singleton.1 hb]
    exact h.lt_of_last horder a ha
  · rw [List.map_append, lastOf_append]
    exact h.back.concat hprev
  · -- The entry in question is the one just passed, or one passed before it.
    intro as e' bs hsplit level hlevel
    rcases List.eq_nil_or_concat bs with rfl | ⟨bs, b, rfl⟩
    · obtain ⟨rfl, hlast⟩ := List.append_inj' hsplit rfl
      obtain rfl := List.singleton_inj.1 hlast
      rw [← hlevels level hlevel, Walk.last_getD_after (by omega)]
    · rw [List.concat_eq_append, ← List.cons_append, ← List.append_assoc] at hsplit
      exact h.levels as e' bs (List.append_inj' hsplit rfl).1 level hlevel
  · rw [List.map_append, List.map_singleton, Walk.after_concat]
    rfl

/-- A walk that comes to an end has passed entries one by one. -/
theorem exists_of_walk (h : ix.Walked es) {room : Nat} {c : Cookie} {w : Walk}
    (hwalk : ix.walk room (.after ix.heads.length (es.map Entry.node)) c = .ok w) :
    ∃ es', ix.Walked es' ∧ w = .after ix.heads.length (es'.map Entry.node) := by
  -- By induction on the entries that the walk may still pass.
  induction room generalizing es c with
  | zero =>
    rcases walk_cases hwalk with ⟨-, rfl⟩ | ⟨e, w₁, room', next, -, -, hroom, -⟩
    · exact ⟨es, h, rfl⟩
    · cases hroom
  | succ room ih =>
    rcases walk_cases hwalk with ⟨-, rfl⟩ | ⟨e, w₁, room', next, hget, hcheck, hroom, -, hrest⟩
    · exact ⟨es, h, rfl⟩
    · obtain rfl := Nat.succ.inj hroom
      obtain ⟨hes, rfl⟩ := h.concat hget hcheck
      exact ih hes hrest

/-- Once all levels have come to an end, each leads from one entry of its height to the next. -/
theorem successor_eq (h : ix.Walked es) (hends : ∀ level < ix.heads.length,
      ix.successor (lastAt level .null (es.map Entry.node)) level = .ok .null)
    {as bs : List (Entry V)} (hsplit : es = as ++ bs) {level : Nat}
    (hlevel : level < ix.heads.length) :
    ix.successor (lastAt level .null (as.map Entry.node)) level =
      .ok (firstAt level (bs.map Entry.node)) := by
  -- No entry of the level comes after the place, or the first one there was led to when it was
  -- passed.
  rcases low_or_first level (bs.map Entry.node) with hlow | ⟨ns, n, ns', hbs, hlow, hn⟩
  · rw [firstAt_of_low hlow, ← hends level hlevel, hsplit, List.map_append, lastAt_append,
      lastAt_of_low hlow]
  · obtain ⟨cs, ds', rfl, rfl, hds⟩ := List.map_eq_append_iff.1 hbs
    obtain ⟨e, ds, rfl, rfl, rfl⟩ := List.map_eq_cons_iff.1 hds
    have hsplit' : es = as ++ cs ++ e :: ds := by rw [hsplit, List.append_assoc]
    have hlink := h.levels (as ++ cs) e ds hsplit' level hn
    rw [List.map_append, lastAt_append, lastAt_of_low hlow] at hlink
    rw [hlink, hbs, firstAt_append_of_low hlow, firstAt_cons_of_lt hn]
    rfl

/-- Once all levels have come to an end, the entries passed are linked on. -/
theorem linkedOn (h : ix.Walked es) (hends : ∀ level < ix.heads.length,
      ix.successor (lastAt level .null (es.map Entry.node)) level = .ok .null) : LinkedOn es := by
  intro as e bs hsplit level hlevel
  have he : e ∈ es := by
    rw [hsplit]
    simp
  have hin : level < ix.heads.length := Nat.lt_of_lt_of_le hlevel (h.heights e he).2
  have hsplit' : es = as ++ [e] ++ bs := by
    rw [hsplit, List.append_assoc]
    rfl
  have hnext := h.successor_eq hends hsplit' hin
  have hlast : lastAt level .null ((as ++ [e]).map Entry.node) = e.cookie := by
    rw [List.map_append, lastAt_append]
    exact if_pos hlevel
  rw [hlast] at hnext
  exact links_of_successor (h.found e he).1 (h.found e he).2 hnext

/-- A walk that passes all the checks at its end has passed the entries that the index threads. -/
theorem threaded (h : ix.Walked es)
    (hlevels : ix.heads.length ≤ maxLevels) (hends : ∀ level < ix.heads.length,
      ix.successor (lastAt level .null (es.map Entry.node)) level = .ok .null)
    (htail : ix.tail = lastOf .null (es.map Entry.node)) (hcount : ix.count = es.length)
    (hstored : ix.table.live.length = es.length)
    (hissued : ∀ e ∈ ix.table.live, e.cookie ≠ .null ∧ e.cookie.val ≤ ix.lastCookie) :
    ix.Threaded (es.map Entry.node) := by
  obtain ⟨hweave, -⟩ := h.back.weave_eq (h.linkedOn hends)
  -- As many entries are stored as have been passed, so none is stored off the levels.
  have hnodup : es.Nodup := h.sorted.imp fun hlt heq => Name.ne_of_lt hlt (congrArg Entry.name heq)
  have hstores : ix.table.Stores es :=
    CookieTable.stores_of_length_le (fun e he => (h.found e he).2) hnodup (Nat.le_of_eq hstored)
  refine ⟨?_, by rwa [hweave], fun level hlevel => ?_, htail, ?_, hlevels, ?_, ?_⟩
  · rw [List.pairwise_map]
    exact h.sorted
  · exact heads_of_successor (h.successor_eq hends (show es = [] ++ es from rfl) hlevel)
  · rw [hcount, List.length_map]
  · rw [List.forall_mem_map]
    exact h.heights
  · rw [List.forall_mem_map]
    intro e he
    obtain ⟨hc, hle⟩ := hissued e (hstores.mem_live_iff.2 he)
    exact ⟨Nat.pos_of_ne_zero fun h0 => hc (congrArg Cookie.mk h0), hle⟩

end Walked

/-! ## The walk of a laid-out index -/

namespace Layout

variable {ns pre post : List (Node V)} {n : Node V}

/-- Every entry of a laid-out index passes. -/
theorem checkEntry_eq (h : ix.Layout (pre ++ n :: post)) :
    ix.checkEntry (.after ix.heads.length pre) n.cookie (n.linked (lastOf .null pre) post) =
      .ok (.after ix.heads.length (pre ++ [n])) := by
  have hheight := h.height_bounds
  rw [checkEntry_eq_ok_iff, Node.height_linked]
  refine ⟨⟨by omega, hheight.2⟩, rfl, fun hlast => ?_, fun level hlevel => ?_,
    (Walk.after_concat n).symm⟩
  · rcases List.eq_nil_or_concat pre with rfl | ⟨as, m, rfl⟩
    · exact absurd rfl hlast
    · rw [List.concat_eq_append] at h ⊢
      have hlt := h.lt_name_of_mem m (by simp)
      rw [List.append_assoc, List.singleton_append] at h
      refine ⟨m.linked (lastOf .null as) (n :: post), ?_, hlt⟩
      rw [Walk.after, lastOf_append]
      exact h.resolve_cookie
  · rw [Walk.last_getD_after (by omega), h.successor_lastAt (by omega), firstAt_cons_of_lt hlevel]

/-- A walk along a laid-out index passes all its entries. -/
theorem walk_eq (h : ix.Layout (pre ++ post)) {room : Nat} (hroom : post.length ≤ room) :
    ix.walk room (.after ix.heads.length pre) (firstAt 0 post) =
      .ok (.after ix.heads.length (pre ++ post)) := by
  induction post generalizing pre room with
  | nil =>
    unfold walk
    rw [List.append_nil]
    exact if_pos rfl
  | cons n post ih =>
    obtain ⟨room, rfl⟩ : ∃ k, room = k + 1 := ⟨room - 1, by rw [List.length_cons] at hroom; omega⟩
    have hheight := h.height_bounds.1
    have hlayout : ix.Layout (pre ++ [n] ++ post) := by rwa [List.append_assoc]
    have hrest := ih hlayout (Nat.le_of_succ_le_succ hroom)
    rw [h.firstAt_zero, walk, if_neg h.cookie_ne_null, h.resolve_cookie, ok_bind, h.checkEntry_eq,
      ok_bind]
    dsimp only
    rw [n.next_linked _ _ hheight, ok_bind, hrest, List.append_assoc, List.singleton_append]

/-- A laid-out index passes the check. -/
theorem check_eq (h : ix.Layout ns) : ix.check = .ok ix.count := by
  have hlayout : ix.Layout (ns ++ []) := by rwa [List.append_nil]
  have hwalk := (show ix.Layout ([] ++ ns) from h).walk_eq (Nat.le_of_eq h.count.symm)
  rw [List.nil_append, ← Walk.start_eq, ← h.front_eq] at hwalk
  refine check_eq_ok_iff_walk.2 ⟨h.levels, _, hwalk, fun level hlevel => ?_, h.tail, h.count.symm,
    h.length_live, fun e he => ?_, h.count.symm⟩
  · rw [Walk.length_last_after] at hlevel
    rw [Walk.last_getD_after hlevel]
    exact hlayout.successor_lastAt hlevel
  · have hnode := node_mem_of_mem_weave (h.stores.mem_live_iff.1 he)
    exact ⟨h.ne_null hnode, (h.issued _ hnode).2⟩

end Layout

/-- An index that passes the check threads the entries that the check has passed. -/
theorem exists_threaded_of_check {n : Nat} (h : ix.check = .ok n) : ∃ ns, ix.Threaded ns := by
  obtain ⟨hlevels, w, hwalk, hends, htail, hseen, hstored, hissued, -⟩ := check_eq_ok_iff_walk.1 h
  rw [Walk.start_eq (V := V)] at hwalk
  obtain ⟨es, hes, rfl⟩ := (Walked.nil ix).exists_of_walk hwalk
  have hlen : es.length = ix.count := by rw [← hseen, Walk.after, List.length_map]
  rw [Walk.length_last_after] at hends
  refine ⟨_, hes.threaded hlevels (fun level hlevel => ?_) htail hlen.symm ?_ hissued⟩
  · rw [← Walk.last_getD_after hlevel]
    exact hends level hlevel
  · rw [hstored, hseen, hlen]

/-- An index that passes the check is laid out by the entries that the check has passed, if its
table has a size that it may have. -/
theorem exists_layout_of_check (hcap : ix.capacity.isPowerOfTwo) {n : Nat} (h : ix.check = .ok n) :
    ∃ ns, ix.Layout ns := by
  obtain ⟨ns, hns⟩ := exists_threaded_of_check h
  exact ⟨ns, { hns with capacity := hcap }⟩

/-! ## Failing the check -/

theorem resolve_sound (c : Cookie) : Sound (ix.resolve c) := by
  rw [resolve]
  cases ix.table.get? c with
  | none => exact .corrupt _
  | some e => exact .ok e

/-- A level in use is never read out of range. -/
theorem successor_sound (holder : Cookie) {level : Nat} (h : level < ix.heads.length) :
    Sound (ix.successor holder level) := by
  rw [successor]
  split_ifs
  · rw [List.getElem?_eq_getElem h]
    exact .ok _
  · refine (resolve_sound holder).bind fun e _ => ?_
    cases e.links[level]? with
    | none => exact .corrupt _
    | some c => exact .ok c

theorem checkLevels_sound (c : Cookie) {height : Nat} (h : height ≤ ix.heads.length)
    (last : List Cookie) : Sound (ix.checkLevels c height last) := by
  induction height with
  | zero => exact .ok last
  | succ height ih =>
    rw [checkLevels_succ]
    refine (ih (by omega)).bind fun last' _ => ?_
    refine (successor_sound _ (by omega)).bind fun next _ => ?_
    exact (Sound.expect _ _).bind fun _ _ => .ok _

theorem checkOrder_sound (before c : Cookie) (e : Entry V) : Sound (ix.checkOrder before c e) := by
  rw [checkOrder]
  split_ifs
  · exact .ok ()
  · exact (resolve_sound before).bind fun _ _ => .expect _ _

/-- The levels of an entry are only followed once its height is known to be in range. -/
theorem checkEntry_sound (w : Walk) (c : Cookie) (e : Entry V) : Sound (ix.checkEntry w c e) := by
  rw [checkEntry_eq]
  refine (Sound.expect _ _).bind fun _ hheight => ?_
  refine (Sound.expect _ _).bind fun _ _ => ?_
  refine (checkOrder_sound _ c e).bind fun _ _ => ?_
  exact (checkLevels_sound c (expect_eq_ok_iff.1 hheight).2 _).bind fun _ _ => .ok _

/-- An entry with a level has a link at level 0. -/
theorem next_sound {e : Entry V} (h : e.height ≠ 0) : Sound e.next := by
  unfold Entry.next
  cases hlinks : e.links with
  | nil => exact absurd (congrArg List.length hlinks) h
  | cons c links => exact .ok c

theorem walk_sound (room : Nat) (w : Walk) (c : Cookie) : Sound (ix.walk room w c) := by
  induction room generalizing w c with
  | zero =>
    unfold walk
    split_ifs
    · exact .ok w
    · refine (resolve_sound c).bind fun e _ => ?_
      exact (checkEntry_sound w c e).bind fun _ _ => .corrupt _
  | succ room ih =>
    unfold walk
    split_ifs
    · exact .ok w
    · refine (resolve_sound c).bind fun e _ => ?_
      refine (checkEntry_sound w c e).bind fun w₁ hw₁ => ?_
      exact (next_sound (checkEntry_eq_ok_iff.1 hw₁).1.1).bind fun next _ => ih w₁ next

/-- The check never reads out of range, never counts below zero and always ends: an index that fails
it contradicts itself. -/
theorem check_sound (ix : Index G V) : Sound ix.check := by
  unfold check
  refine (Sound.expect _ _).bind fun _ _ => ?_
  refine (walk_sound _ _ _).bind fun w hwalk => ?_
  rw [Walk.start_eq (V := V)] at hwalk
  obtain ⟨es, -, rfl⟩ := (Walked.nil ix).exists_of_walk hwalk
  have hends : Sound (ix.checkEnds (Walk.after ix.heads.length (es.map Entry.node)).last) := by
    refine .forM fun level hlevel => ?_
    rw [List.mem_range, Walk.length_last_after] at hlevel
    exact (successor_sound _ hlevel).bind fun _ _ => .expect _ _
  -- What is left are expectations.
  refine hends.bind fun _ _ => ?_
  refine (Sound.expect _ _).bind fun _ _ => ?_
  refine (Sound.expect _ _).bind fun _ _ => ?_
  refine (Sound.expect _ _).bind fun _ _ => ?_
  exact (Sound.forM fun e _ => .expect _ _).bind fun _ _ => .ok _

/-- The check passes exactly the indexes whose parts agree, and gives their number of entries. On
any other state it stops with a contradiction that it has found. -/
theorem check_exact (hcap : ix.capacity.isPowerOfTwo) :
    (∀ n, ix.check = .ok n ↔ ix.Consistent ∧ n = ix.count) ∧
      (¬ ix.Consistent → ∃ what, ix.check = .error (.corrupt what)) := by
  have hiff : ∀ n, ix.check = .ok n ↔ ix.Consistent ∧ n = ix.count := by
    intro n
    constructor
    · intro h
      obtain ⟨ns, hlayout⟩ := exists_layout_of_check hcap h
      rw [hlayout.check_eq] at h
      exact ⟨hlayout.wellFormed.toConsistent, (Except.ok.inj h).symm⟩
    · rintro ⟨h, rfl⟩
      obtain ⟨ns, hlayout⟩ := h.exists_layout hcap
      exact hlayout.check_eq
  refine ⟨hiff, fun h => ?_⟩
  exact (check_sound ix).exists_corrupt fun n hn => h ((hiff n).1 hn).1

/-- An index of one entry. -/
def lone (source : G) : Index G Nat where
  table :=
    ⟨#[none, some { name := [97], value := 7, cookie := ⟨1⟩, links := [.null] }], by decide⟩
  heads := [⟨1⟩]
  tail := ⟨1⟩
  lastCookie := 1
  count := 1
  maxCapacity := 4
  source

/-- An index of one entry that has passed every cookie. -/
def spent (source : G) : Index G Nat := { lone source with lastCookie := wordLimit - 1 }

/-- An index of two entries in as many slots, which may not double although it may have three. -/
def stuck (source : G) : Index G Nat where
  table := ⟨#[some { name := [98], value := 8, cookie := ⟨2⟩, links := [.null], prev := ⟨1⟩ },
    some { name := [97], value := 7, cookie := ⟨1⟩, links := [⟨2⟩] }], by decide⟩
  heads := [⟨1⟩]
  tail := ⟨2⟩
  lastCookie := 2
  count := 2
  maxCapacity := 3
  source

/-- The parts of the index agree until it loses its tail. -/
theorem check_exact_lone :
    (lone ()).Consistent ∧ (lone ()).count = 1 ∧
      ∃ what, ({ lone () with tail := .null } : Index Unit Nat).check = .error (.corrupt what) := by
  have hcap : (lone ()).capacity.isPowerOfTwo := ⟨1, rfl⟩
  have hcap' : ({ lone () with tail := .null } : Index Unit Nat).capacity.isPowerOfTwo := ⟨1, rfl⟩
  have hfails : ({ lone () with tail := .null } : Index Unit Nat).check =
      .error (.corrupt (.wrongTail .null ⟨1⟩)) := by rfl
  obtain ⟨hpasses, -⟩ := check_exact hcap
  obtain ⟨hpasses', hstops⟩ := check_exact hcap'
  refine ⟨((hpasses 1).1 (by rfl)).1, rfl, hstops fun h => ?_⟩
  have h := (hpasses' 1).2 ⟨h, rfl⟩
  rw [hfails] at h
  cases h

end Index

end NameIndex
