import NameIndex.Proofs.Check
import NameIndex.Proofs.Remove
import NameIndex.Proofs.Scan

/-!
# Removals on damaged references

A reference to an entry is a link to it, from the heads or from the entry before it at a level, or
its back link, which the entry after it holds, or the tail. In an index that passes its check and
that then has one reference to an entry overwritten (`Damaged`), the removal of that entry stops.

The search before the removal still comes to the place of the entry. Where the overwritten link is
read, an end of the level, a cookie that is not held and an entry of a later name all keep it from
going further along, so it stops or passes the same cookies as before (`Mirrors.search`). The damage
is then met where the removal compares the link with the cookie (`Threaded.remove_stops_of_link`),
or the back link once the entry is off its levels (`Threaded.remove_stops_of_backLink`).
-/

namespace NameIndex

variable {G V : Type}

namespace Index

/-- Makes `prev` the cookie before `next`, or the tail if `next` is null. -/
def setBackLink (ix : Index G V) (next prev : Cookie) : Index G V :=
  if next = .null then { ix with tail := prev } else ix.setPrev next prev

/-- The cookie leads to no entry, or to one of a later name. -/
def Overshoots (ix : Index G V) (name : Name) (c : Cookie) : Prop :=
  c = .null ∨ ix.get? c = none ∨ ∃ e, ix.get? c = some e ∧ name < e.name

/-- The index is `ix` with one reference to the entry `e` overwritten. -/
inductive Damaged (ix : Index G V) (e : Entry V) : Index G V → Prop where
  /-- A link to the entry is null, or a cookie that is not held, or that of an entry of a later
  name. -/
  | link {level : Nat} {holder bad : Cookie} (hlink : ix.successor holder level = .ok e.cookie)
      (hbad : ix.Overshoots e.name bad) :
    Damaged ix e (ix.setSuccessor holder level bad)
  /-- The entry after it, or the tail, points back to another cookie. -/
  | backLink {next bad : Cookie} (hnext : ix.successor e.cookie 0 = .ok next)
      (hbad : bad ≠ e.cookie) :
    Damaged ix e (ix.setBackLink next bad)

/-! ## Searching a damaged index -/

/-- A search in `ix'` goes along where one in `ix` does, and does not where that does not. -/
structure Mirrors (ix ix' : Index G V) (name : Name) (wanted : Cookie) : Prop where
  /-- There are as many levels. -/
  levels : ix'.heads.length = ix.heads.length
  /-- There are as many slots. -/
  capacity : ix'.capacity = ix.capacity
  /-- Both go along to the same entry. -/
  along : ∀ holder level next, ix.successor holder level = .ok next →
    ix.move name wanted level next = .ok .along →
      ix'.successor holder level = .ok next ∧ ix'.move name wanted level next = .ok .along
  /-- Where the one goes down, the other goes down or stops. -/
  down : ∀ holder level next hit, ix.successor holder level = .ok next →
    ix.move name wanted level next = .ok (.down hit) →
      ∃ next', ix'.successor holder level = .ok next' ∧
        (Stops (ix'.move name wanted level next') ∨
          ∃ hit', ix'.move name wanted level next' = .ok (.down hit'))

variable {ix ix' : Index G V} {name : Name} {wanted : Cookie}

/-- The rest of a search that goes along and down at the same places passes the same cookies, as far
as it goes. -/
theorem Mirrors.descend (h : ix.Mirrors ix' name wanted) {fuel level : Nat} {holder : Cookie}
    {passed : List Cookie} {found : Bool} {p : Predecessors}
    (hp : ix.descend name wanted fuel level holder passed found = .ok p) (found' : Bool) :
    Sound (ix'.descend name wanted fuel level holder passed found') ∧
      ∀ p', ix'.descend name wanted fuel level holder passed found' = .ok p' →
        p'.cookies = p.cookies := by
  -- Step for step with the search that succeeds.
  induction fuel, level, holder, passed, found using Index.descend.induct generalizing found' with
  | case1 fuel holder passed found =>
    rw [Index.descend] at hp ⊢
    cases hp
    refine ⟨.ok _, fun p' hp' => ?_⟩
    cases hp'
    rfl
  | case2 holder passed found level =>
    rw [Index.descend] at hp
    cases hp
  | case3 fuel level holder passed found ihalong ihdown =>
    rw [Index.descend] at hp ⊢
    obtain ⟨next, hnext, hp⟩ := bind_eq_ok_iff.1 hp
    obtain ⟨m, hmove, hp⟩ := bind_eq_ok_iff.1 hp
    cases m with
    | along =>
      obtain ⟨hnext', hmove'⟩ := h.along holder level next hnext hmove
      rw [hnext', ok_bind, hmove', ok_bind]
      exact ihalong next hp found'
    | down hit =>
      obtain ⟨next', hnext', hmove'⟩ := h.down holder level next hit hnext hmove
      rw [hnext', ok_bind]
      rcases hmove' with ⟨w, hmove'⟩ | ⟨hit', hmove'⟩
      · rw [hmove', error_bind]
        exact ⟨.corrupt w, fun p' hp' => by cases hp'⟩
      · rw [hmove', ok_bind]
        dsimp only at hp ⊢
        split_ifs at hp ⊢
        exact ihdown hit hp _

/-- A search that goes along and down at the same places stops for a contradiction, or passes the
same cookies. -/
theorem Mirrors.search (h : ix.Mirrors ix' name wanted) {p : Predecessors}
    (hp : ix.search name wanted = .ok p) :
    Sound (ix'.search name wanted) ∧
      ∀ p', ix'.search name wanted = .ok p' → ∀ level, p'.before level = p.before level := by
  rw [Index.search, searchWithin] at hp
  rw [Index.search, searchWithin, h.levels, h.capacity]
  obtain ⟨hsound, hcookies⟩ := h.descend hp false
  refine ⟨hsound, fun p' hp' level => ?_⟩
  rw [Predecessors.before, Predecessors.before, hcookies p' hp']

/-- How a search goes on depends on what the entries show of their nodes. -/
theorem move_congr (h : ∀ d, (ix'.get? d).map Entry.node = (ix.get? d).map Entry.node)
    (level : Nat) (next : Cookie) :
    ix'.move name wanted level next = ix.move name wanted level next := by
  have hnext := h next
  rw [get?, get?] at hnext
  rw [move, move, resolve, resolve]
  cases hget : ix.table.get? next with
  | none =>
    rw [hget, Option.map_none, Option.map_eq_none_iff] at hnext
    rw [hnext]
  | some e =>
    rw [hget] at hnext
    obtain ⟨e', he', hnode⟩ := Option.map_eq_some_iff.1 hnext
    have hname : e'.name = e.name := congrArg (fun n => n.name) hnode
    have hheight : e'.height = e.height := congrArg (fun n => n.height) hnode
    rw [he']
    dsimp only
    rw [ok_bind, ok_bind, hname, hheight]

/-- What comes after a holder depends on the heads and on the links of the entries. -/
theorem successor_congr (hheads : ix'.heads = ix.heads)
    (h : ∀ d, (ix'.get? d).map Entry.links = (ix.get? d).map Entry.links) (holder : Cookie)
    (level : Nat) : ix'.successor holder level = ix.successor holder level := by
  have hholder := h holder
  rw [get?, get?] at hholder
  rw [successor, successor, resolve, resolve, hheads]
  cases hget : ix.table.get? holder with
  | none =>
    rw [hget, Option.map_none, Option.map_eq_none_iff] at hholder
    rw [hholder]
  | some e =>
    rw [hget] at hholder
    obtain ⟨e', he', hlinks⟩ := Option.map_eq_some_iff.1 hholder
    rw [he']
    dsimp only
    rw [ok_bind, ok_bind, hlinks]

/-- Indexes with the same links and nodes are searched alike. -/
theorem Mirrors.of_same (hheads : ix'.heads = ix.heads) (hcap : ix'.capacity = ix.capacity)
    (hlinks : ∀ d, (ix'.get? d).map Entry.links = (ix.get? d).map Entry.links)
    (hnodes : ∀ d, (ix'.get? d).map Entry.node = (ix.get? d).map Entry.node) :
    ix.Mirrors ix' name wanted where
  levels := by rw [hheads]
  capacity := hcap
  along := fun holder level next hnext hmove =>
    ⟨(successor_congr hheads hlinks holder level).trans hnext,
      (move_congr hnodes level next).trans hmove⟩
  down := fun holder level next hit hnext hmove =>
    ⟨next, (successor_congr hheads hlinks holder level).trans hnext,
      .inr ⟨hit, (move_congr hnodes level next).trans hmove⟩⟩

/-! ## A damaged link -/

section Link

variable {holder bad c d : Cookie} {level l : Nat}

theorem length_heads_setSuccessor (ix : Index G V) (holder : Cookie) (level : Nat) (next : Cookie) :
    (ix.setSuccessor holder level next).heads.length = ix.heads.length := by
  rw [setSuccessor]
  split_ifs
  · exact List.length_set
  · rfl

theorem capacity_setSuccessor (ix : Index G V) (holder : Cookie) (level : Nat) (next : Cookie) :
    (ix.setSuccessor holder level next).capacity = ix.capacity := by
  rw [setSuccessor]
  split_ifs
  · rfl
  · exact CookieTable.capacity_modify ..

theorem tail_setSuccessor (ix : Index G V) (holder : Cookie) (level : Nat) (next : Cookie) :
    (ix.setSuccessor holder level next).tail = ix.tail := by
  rw [setSuccessor]
  split_ifs
  · rfl
  · rfl

theorem get?_setSuccessor_self {e : Entry V} (hholder : holder ≠ .null)
    (hget : ix.table.get? holder = some e) :
    (ix.setSuccessor holder level bad).table.get? holder =
      some { e with links := e.links.set level bad } := by
  have hself := ix.table.get?_modify_self holder
    (f := fun e => { e with links := e.links.set level bad }) fun _ => rfl
  rw [hget] at hself
  rw [setSuccessor, if_neg hholder]
  exact hself

theorem get?_setSuccessor_of_ne (hne : d ≠ holder) :
    (ix.setSuccessor holder level bad).table.get? d = ix.table.get? d := by
  rw [setSuccessor]
  split_ifs
  · rfl
  · exact ix.table.get?_modify_of_ne (f := fun e => { e with links := e.links.set level bad }) hne
      fun _ => rfl

/-- What does not depend on the links of an entry is found as before. -/
theorem map_get?_setSuccessor {α : Type} {g : Entry V → α}
    (hg : ∀ e level next, g { e with links := e.links.set level next } = g e)
    (ix : Index G V) (holder : Cookie) (level : Nat) (next d : Cookie) :
    ((ix.setSuccessor holder level next).get? d).map g = (ix.get? d).map g := by
  rw [setSuccessor]
  split_ifs
  · rfl
  · exact ix.table.map_get?_modify holder d
      (f := fun e => { e with links := e.links.set level next }) (fun _ => rfl)
      fun e => hg e level next

theorem node_setLink (e : Entry V) (level : Nat) (next : Cookie) :
    ({ e with links := e.links.set level next } : Entry V).node = e.node := by
  have hheight : (e.links.set level next).length = e.links.length := List.length_set
  rw [Entry.node, Entry.node, Entry.height, Entry.height, hheight]
  rfl

/-- A link that is set is what comes after its holder at its level. -/
theorem successor_setSuccessor_self (h : ix.successor holder level = .ok c) :
    (ix.setSuccessor holder level bad).successor holder level = .ok bad := by
  rw [successor_eq_ok_iff] at h ⊢
  rcases h with ⟨rfl, hhead⟩ | ⟨hholder, e, hget, hlink⟩
  · refine .inl ⟨rfl, ?_⟩
    rw [setSuccessor, if_pos rfl]
    exact List.getElem?_set_self (List.getElem?_eq_some_iff.1 hhead).1
  · refine .inr ⟨hholder, _, get?_setSuccessor_self hholder hget, ?_⟩
    exact List.getElem?_set_self (List.getElem?_eq_some_iff.1 hlink).1

/-- After other holders, and at other levels, comes what came there before. -/
theorem successor_setSuccessor_of_ne {next : Cookie} (hne : ¬ (d = holder ∧ l = level))
    (h : ix.successor d l = .ok next) :
    (ix.setSuccessor holder level bad).successor d l = .ok next := by
  rw [successor_eq_ok_iff] at h ⊢
  rcases h with ⟨rfl, hhead⟩ | ⟨hd, e, hget, hlink⟩
  · refine .inl ⟨rfl, ?_⟩
    rw [setSuccessor]
    split_ifs with hnull
    · have hlevel : level ≠ l := fun heq => hne ⟨hnull.symm, heq.symm⟩
      dsimp only
      rw [List.getElem?_set_ne hlevel, hhead]
    · exact hhead
  · by_cases hholder : d = holder
    · subst hholder
      have hlevel : level ≠ l := fun heq => hne ⟨rfl, heq.symm⟩
      refine .inr ⟨hd, _, get?_setSuccessor_self hd hget, ?_⟩
      dsimp only
      rw [List.getElem?_set_ne hlevel, hlink]
    · exact .inr ⟨hd, e, (get?_setSuccessor_of_ne hholder).trans hget, hlink⟩

/-- A search for an entry goes down when it comes to that entry. -/
theorem move_found {e : Entry V} (he : ix.get? c = some e) (level : Nat) :
    ix.move e.name c level c = .ok (.down true) := by
  have hnull : c ≠ .null := (CookieTable.get?_eq_some_iff.1 he).1
  rw [move, if_neg hnull, resolve_eq_ok_iff.2 he, ok_bind, if_neg (List.lt_irrefl _),
    if_pos ⟨rfl, .inr rfl⟩]

/-- The cookie of an entry leads to it. -/
theorem not_overshoots {e : Entry V} (he : ix.get? c = some e) : ¬ ix.Overshoots e.name c := by
  have hnull : c ≠ .null := (CookieTable.get?_eq_some_iff.1 he).1
  rintro (hnull' | hnone | ⟨e', he', hlt⟩)
  · exact hnull hnull'
  · rw [he] at hnone
    cases hnone
  · rw [he] at he'
    cases he'
    exact List.lt_irrefl _ hlt

/-- A search goes down or stops at a link that does not lead to an entry on its way. -/
theorem move_off (hbad : ix.Overshoots name bad) (wanted : Cookie) (level : Nat) :
    Stops (ix.move name wanted level bad) ∨
      ∃ hit, ix.move name wanted level bad = .ok (.down hit) := by
  by_cases hnull : bad = .null
  · exact .inr ⟨false, by rw [move, if_pos hnull]⟩
  · rw [move, if_neg hnull]
    rcases hbad with hnull' | hnone | ⟨e, he, hlt⟩
    · exact absurd hnull' hnull
    · rw [resolve, show ix.table.get? bad = none from hnone]
      exact .inl (.corrupt _)
    · rw [resolve_eq_ok_iff.2 he, ok_bind, if_pos hlt]
      exact .inr ⟨false, rfl⟩

/-- A search for an entry is not led astray by a damaged link to it. -/
theorem Mirrors.of_link {e : Entry V} (he : ix.get? c = some e)
    (hlink : ix.successor holder level = .ok c) (hbad : ix.Overshoots e.name bad) :
    ix.Mirrors (ix.setSuccessor holder level bad) e.name c where
  levels := length_heads_setSuccessor ix holder level bad
  capacity := capacity_setSuccessor ix holder level bad
  along := fun d l next hnext hmove => by
    have hne : ¬ (d = holder ∧ l = level) := by
      rintro ⟨rfl, rfl⟩
      rw [hlink] at hnext
      cases hnext
      rw [move_found he] at hmove
      cases hmove
    refine ⟨successor_setSuccessor_of_ne hne hnext, ?_⟩
    rw [move_congr (map_get?_setSuccessor node_setLink ix holder level bad), hmove]
  down := fun d l next hit hnext hmove => by
    have hsame : ∀ l next, (ix.setSuccessor holder level bad).move e.name c l next =
        ix.move e.name c l next :=
      move_congr (map_get?_setSuccessor node_setLink ix holder level bad)
    by_cases hdamaged : d = holder ∧ l = level
    · obtain ⟨rfl, rfl⟩ := hdamaged
      refine ⟨bad, successor_setSuccessor_self hlink, ?_⟩
      rw [hsame]
      exact move_off hbad c l
    · exact ⟨next, successor_setSuccessor_of_ne hdamaged hnext, .inr ⟨hit, by rw [hsame, hmove]⟩⟩

end Link

/-! ## Removing from a damaged index -/

variable {pre post ns : List (Node V)} {n : Node V} {c holder next bad : Cookie}
  {e e' : Entry V} {level : Nat} {p : Predecessors}

theorem checkPlaced_sound (c : Cookie) (p : Predecessors) {height : Nat}
    (h : height ≤ ix.heads.length) : Sound (ix.checkPlaced c p height) :=
  .forM fun _ hlevel =>
    (successor_sound _ (Nat.lt_of_lt_of_le (List.mem_range.1 hlevel) h)).bind fun _ _ => .expect _ _

/-- A removal whose search passes the same cookies stops, if it does where its back link is passed
on. -/
theorem Mirrors.remove_stops (h : ix.Mirrors ix' name c) (hp : ix.search name c = .ok p)
    (hget : ix'.get? c = some e') (hname : e'.name = name)
    (hrest : ∀ p', (∀ level, p'.before level = p.before level) →
      ix'.checkPlaced c p' e'.height = .ok () → ∀ table, ix'.table.take? c = some (e', table) →
        Stops ((({ ix' with table } : Index G V).relink p' e'.height
          fun level => e'.links.getD level .null).passBackLink c e')) :
    Stops (ix'.remove c) := by
  obtain ⟨hsound, hbefore⟩ := h.search hp
  rw [remove, show ix'.table.get? c = some e' from hget]
  dsimp only
  rw [hname]
  refine (Sound.expect _ _).stops_bind fun _ hheight => ?_
  refine hsound.stops_bind fun p' hp' => ?_
  refine (Sound.expect _ _).stops_bind fun _ _ => ?_
  refine (checkPlaced_sound c p' (expect_eq_ok_iff.1 hheight).2).stops_bind fun _ hplaced => ?_
  cases htake : ix'.table.take? c with
  | none => exact .corrupt _
  | some taken =>
    obtain ⟨e₁, table⟩ := taken
    obtain rfl : e₁ = e' :=
      Option.some.inj ((CookieTable.take?_eq_some_iff.1 htake).1.symm.trans hget)
    exact (hrest p' (hbefore p' hp') hplaced table htake).bind _

/-- A link to a node is held where the level comes from before it. -/
theorem Threaded.holder_eq (h : ix.Threaded (pre ++ n :: post))
    (hlink : ix.successor holder level = .ok n.cookie) :
    level < n.height ∧ lastAt level .null pre = holder := by
  -- The holder stands before the part of the nodes that the level enters at this one.
  have hplace : ∃ as bs, pre ++ n :: post = as ++ bs ∧ lastAt level .null as = holder ∧
      firstAt level bs = n.cookie := by
    rcases successor_eq_ok_iff.1 hlink with ⟨rfl, hhead⟩ | ⟨-, e, hget, hnext⟩
    · refine ⟨[], _, rfl, rfl, ?_⟩
      rw [h.heads level (List.getElem?_eq_some_iff.1 hhead).1] at hhead
      exact Option.some.inj hhead
    · obtain ⟨as, m, bs, hsplit, rfl, rfl⟩ := h.get?_eq_some_iff.1 hget
      rw [Node.links_linked_getElem?] at hnext
      split_ifs at hnext with hm
      exact ⟨as ++ [m], bs, by rw [hsplit, List.append_assoc]; rfl,
        lastAt_append_cons hm (by simp), Option.some.inj hnext⟩
  obtain ⟨as, bs, hsplit, hholder, hfirst⟩ := hplace
  rcases low_or_first level bs with hlow | ⟨bs₁, m, bs₂, rfl, hlow, hm⟩
  · rw [firstAt_of_low hlow] at hfirst
    exact absurd hfirst.symm h.cookie_ne_null
  · rw [firstAt_append_of_low hlow, firstAt_cons_of_lt hm] at hfirst
    rw [← List.append_assoc] at hsplit
    -- No other node has the cookie, so the nodes before the place are those before the node.
    have hpre : m ∉ pre := fun hmem => h.cookie_ne m (List.mem_append_left _ hmem) hfirst
    have hpost : m ∉ post := fun hmem => h.cookie_ne m (List.mem_append_right _ hmem) hfirst
    obtain ⟨rfl, rfl, rfl⟩ := (List.append_cons_inj_of_notMem hpre hpost).1 hsplit
    exact ⟨hm, by rw [lastAt_append, hholder, lastAt_of_low hlow]⟩

/-- The removal of an entry stops if a link to it has been overwritten. -/
theorem Threaded.remove_stops_of_link (h : ix.Threaded ns) (he : ix.get? c = some e)
    (hlink : ix.successor holder level = .ok c) (hbad : ix.Overshoots e.name bad) :
    Stops ((ix.setSuccessor holder level bad).remove c) := by
  obtain ⟨pre, n, post, rfl, rfl, rfl⟩ := h.get?_eq_some_iff.1 he
  obtain ⟨hlevel, rfl⟩ := h.holder_eq hlink
  obtain ⟨p, hp, -, hbefore⟩ := h.search_node
  have hnode := map_get?_setSuccessor node_setLink ix (lastAt level .null pre) level bad n.cookie
  rw [he] at hnode
  obtain ⟨e', he', hnode⟩ := Option.map_eq_some_iff.1 hnode
  rw [Node.node_linked] at hnode
  have hname : e'.name = n.name := congrArg (fun n => n.name) hnode
  have hheight : e'.height = n.height := congrArg (fun n => n.height) hnode
  refine (Mirrors.of_link he hlink hbad).remove_stops hp he' hname fun p' hp' hplaced => ?_
  -- At the level of the link the removal finds another cookie than that of the entry.
  rw [checkPlaced, forM_eq_ok_iff] at hplaced
  have hstep := hplaced level (List.mem_range.2 (by rw [hheight]; exact hlevel))
  rw [hp' level, hbefore level, successor_setSuccessor_self hlink, ok_bind] at hstep
  obtain rfl : bad = n.cookie := expect_eq_ok_iff.1 hstep
  exact absurd hbad (not_overshoots he)

/-! ## A damaged back link -/

theorem heads_setBackLink (ix : Index G V) (next prev : Cookie) :
    (ix.setBackLink next prev).heads = ix.heads := by
  rw [setBackLink]
  split_ifs
  · rfl
  · rfl

theorem capacity_setBackLink (ix : Index G V) (next prev : Cookie) :
    (ix.setBackLink next prev).capacity = ix.capacity := by
  rw [setBackLink]
  split_ifs
  · rfl
  · exact CookieTable.capacity_modify ..

/-- What does not depend on the back link of an entry is found as before. -/
theorem map_get?_setBackLink {α : Type} {g : Entry V → α} (hg : ∀ e prev, g { e with prev } = g e)
    (ix : Index G V) (next prev d : Cookie) :
    ((ix.setBackLink next prev).get? d).map g = (ix.get? d).map g := by
  rw [setBackLink]
  split_ifs
  · rfl
  · exact ix.table.map_get?_modify next d (f := fun e => { e with prev }) (fun _ => rfl)
      fun e => hg e prev

/-- The entry after a place points back as it has been made to. -/
theorem prev_setBackLink (hnext : next ≠ .null) {after : Entry V}
    (h : (ix.setBackLink next bad).get? next = some after) : after.prev = bad := by
  have hself := ix.table.get?_modify_self next (f := fun e => { e with prev := bad }) fun _ => rfl
  rw [setBackLink, if_neg hnext] at h
  obtain ⟨e, -, rfl⟩ := Option.map_eq_some_iff.1 (hself.symm.trans h)
  rfl

theorem tail_relink (p : Predecessors) (height : Nat) (next : Nat → Cookie) :
    (ix.relink p height next).tail = ix.tail := by
  induction height with
  | zero => rfl
  | succ height ih => rw [relink_succ, tail_setSuccessor, ih]

/-- Relinking levels leaves the back links alone. -/
theorem map_prev_get?_relink (ix : Index G V) (p : Predecessors) (height : Nat)
    (next : Nat → Cookie) (d : Cookie) :
    ((ix.relink p height next).get? d).map Entry.prev = (ix.get? d).map Entry.prev := by
  induction height with
  | zero => rfl
  | succ height ih => rw [relink_succ, map_get?_setSuccessor fun _ _ _ => rfl, ih]

/-- A back link is not passed on where it is not found. -/
theorem passBackLink_stops (htail : e.links.headD .null = .null → ix.tail ≠ c)
    (hback : ∀ after, ix.get? (e.links.headD .null) = some after → after.prev ≠ c) :
    Stops (ix.passBackLink c e) := by
  rw [passBackLink]
  split_ifs with hnext
  · exact (Stops.expect (htail hnext) _).bind _
  · refine (resolve_sound _).stops_bind fun after hafter => ?_
    exact (Stops.expect (hback after (resolve_eq_ok_iff.1 hafter)) _).bind _

/-- The removal of an entry stops if its back link has been overwritten. -/
theorem Threaded.remove_stops_of_backLink (h : ix.Threaded ns) (he : ix.get? c = some e)
    (hnext : ix.successor c 0 = .ok next) (hbad : bad ≠ c) :
    Stops ((ix.setBackLink next bad).remove c) := by
  obtain ⟨pre, n, post, rfl, rfl, rfl⟩ := h.get?_eq_some_iff.1 he
  obtain ⟨p, hp, -, -⟩ := h.search_node
  -- Nothing that the search reads has changed, nor have the links of the entry.
  have hmirrors : ix.Mirrors (ix.setBackLink next bad) n.name n.cookie :=
    .of_same (heads_setBackLink ix next bad) (capacity_setBackLink ix next bad)
      (map_get?_setBackLink (fun _ _ => rfl) ix next bad)
      (map_get?_setBackLink (fun _ _ => rfl) ix next bad)
  have hshown := map_get?_setBackLink (g := fun e => (e.name, e.links)) (fun _ _ => rfl) ix next bad
    n.cookie
  rw [he] at hshown
  obtain ⟨e', he', hshown⟩ := Option.map_eq_some_iff.1 hshown
  have hname : e'.name = n.name := congrArg Prod.fst hshown
  have hlinks : e'.links = (n.linked (lastOf .null pre) post).links := congrArg Prod.snd hshown
  have hhead : e'.links.headD .null = next := by
    have hlink := links_of_successor h.cookie_ne_null h.get?_cookie hnext
    rw [List.headD_eq_head?_getD, List.head?_eq_getElem?, hlinks, hlink]
    rfl
  refine hmirrors.remove_stops hp he' hname fun p' _ _ table htake => ?_
  refine passBackLink_stops (fun hnull => ?_) fun after hafter => ?_
  · rw [tail_relink]
    rw [hhead] at hnull
    dsimp only
    rw [setBackLink, if_pos hnull]
    exact hbad
  · rw [hhead] at hafter
    have hprev := map_prev_get?_relink { ix.setBackLink next bad with table } p' e'.height
      (fun level => e'.links.getD level .null) next
    rw [hafter] at hprev
    obtain ⟨a, ha, hprev⟩ := Option.map_eq_some_iff.1 hprev.symm
    have ha' := CookieTable.get?_of_take? htake ha
    rw [← hprev, prev_setBackLink (CookieTable.get?_eq_some_iff.1 ha').1 ha']
    exact hbad

/-- At each of its levels an entry of an index that passes its check has one link to it, and at
level 0 one from it. If any reference to it is overwritten, its removal stops. -/
theorem remove_stops_of_damaged {count : Nat} (hcheck : ix.check = .ok count)
    (he : ix.get? c = some e) :
    (∀ level < e.height, ∃ holder, ∀ d, ix.successor d level = .ok c ↔ d = holder) ∧
      (∃ next, ix.successor c 0 = .ok next) ∧
        ∀ ix', ix.Damaged e ix' → Stops (ix'.remove c) := by
  obtain ⟨ns, h⟩ := exists_threaded_of_check hcheck
  have hcookie : e.cookie = c := CookieTable.cookie_eq_of_get? he
  refine ⟨fun level hlevel => ?_, ?_, fun ix' hdamaged => ?_⟩
  · obtain ⟨pre, n, post, rfl, rfl, rfl⟩ := h.get?_eq_some_iff.1 he
    rw [Node.height_linked] at hlevel
    refine ⟨lastAt level .null pre, fun d => ⟨fun hd => (h.holder_eq hd).2.symm, ?_⟩⟩
    rintro rfl
    have hin := Nat.lt_of_lt_of_le hlevel h.height_bounds.2
    rw [h.successor_lastAt hin, firstAt_cons_of_lt hlevel]
  · obtain ⟨pre, n, post, rfl, rfl, rfl⟩ := h.get?_eq_some_iff.1 he
    have hpos : 0 < n.height := h.height_bounds.1
    have hlink := n.links_linked_getElem? (lastOf .null pre) post 0
    rw [if_pos hpos] at hlink
    exact ⟨_, successor_eq_ok_iff.2 (.inr ⟨h.cookie_ne_null, _, h.get?_cookie, hlink⟩)⟩
  · cases hdamaged with
    | link hlink hbad => exact h.remove_stops_of_link he (hcookie ▸ hlink) hbad
    | backLink hnext hbad =>
      exact h.remove_stops_of_backLink he (hcookie ▸ hnext) (hcookie ▸ hbad)

/-- The removals of two entries stop: the link to the one passes it over, and the tail is not the
other one. -/
theorem remove_stops_of_damaged_trio :
    trio.check = .ok 3 ∧ Stops ((trio.setSuccessor ⟨2⟩ 0 ⟨1⟩).remove ⟨3⟩) ∧
      Stops ((trio.setBackLink .null ⟨3⟩).remove ⟨1⟩) := by
  have hcheck : trio.check = .ok 3 := by rfl
  have hmiddle : trio.get? ⟨3⟩ =
      some { name := [97, 98], value := 9, cookie := ⟨3⟩, links := [⟨1⟩], prev := ⟨2⟩ } := by rfl
  have hlast : trio.get? ⟨1⟩ =
      some { name := [98], value := 7, cookie := ⟨1⟩, links := [.null], prev := ⟨3⟩ } := by rfl
  obtain ⟨-, -, hstops⟩ := remove_stops_of_damaged hcheck hmiddle
  obtain ⟨-, -, hstops'⟩ := remove_stops_of_damaged hcheck hlast
  exact ⟨hcheck, hstops _ (.link (by rfl) (.inr (.inr ⟨_, hlast, by decide⟩))),
    hstops' _ (.backLink (by rfl) (by decide))⟩

end Index

end NameIndex
