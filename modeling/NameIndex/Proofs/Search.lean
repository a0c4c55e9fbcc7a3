import NameIndex.Index.Search
import NameIndex.Proofs.WellFormed

/-!
# The search of a threaded index

A name cuts the nodes of a threaded index in two: those before it and the others. A search for the
name ends, and gives at every level the last cookie that the level passes in the first part
(`Threaded.search_eq`). On its way it stands before all nodes of that part, or at one of them that
is tall enough for every level still to go (`Stands`); each step along uses up a node of the part
and each step down a level, which bounds the steps. The steps themselves are a `Course`, which tells
to the step what a search needs (`Course.descend_eq`).
-/

namespace NameIndex

variable {G V : Type}

/-- Where a search with `level` levels to go may stand after the nodes of the list: before all nodes
when there are none, or at the last one, which has all those levels. -/
inductive Stands (level : Nat) : Cookie → List (Node V) → Prop where
  /-- The search stands at the heads. -/
  | heads : Stands level .null []
  /-- The search stands at a node. -/
  | node (as : List (Node V)) (n : Node V) (h : level ≤ n.height) :
    Stands level n.cookie (as ++ [n])

namespace Stands

variable {level : Nat} {holder : Cookie} {as : List (Node V)}

/-- A search that goes down stands where it stood. -/
theorem down (h : Stands (level + 1) holder as) : Stands level holder as := by
  cases h with
  | heads => exact .heads
  | node as n h => exact .node as n (Nat.le_of_succ_le h)

/-- The search stands at the last holder of the level below it. -/
theorem lastAt_eq (h : Stands (level + 1) holder as) : lastAt level .null as = holder := by
  cases h with
  | heads => rfl
  | node as n h => exact lastAt_append_cons h (by simp)

end Stands

/-- Whether one of some nodes has a name. -/
def named (name : Name) (ns : List (Node V)) : Bool := ns.any fun n => n.name = name

theorem named_iff {name : Name} {ns : List (Node V)} :
    named name ns = true ↔ ∃ n ∈ ns, n.name = name := by
  simp [named]

theorem named_eq_false_iff {name : Name} {ns : List (Node V)} :
    named name ns = false ↔ ∀ n ∈ ns, n.name ≠ name := by
  simp [named]

/-- If no node has a name, those that are not before it come after it. -/
theorem lt_name_of_not_named {name : Name} {pre post : List (Node V)}
    (hname : named name (pre ++ post) = false) (hpost : ∀ n ∈ post, ¬ n.name < name) :
    ∀ n ∈ post, name < n.name := by
  intro n hn
  by_contra hlt
  exact named_eq_false_iff.1 hname n (List.mem_append_right pre hn)
    (Name.eq_of_not_lt (hpost n hn) hlt)

/-- No node before a name has it. -/
theorem named_append_of_lt {name : Name} {pre : List (Node V)} (hpre : ∀ n ∈ pre, n.name < name)
    (post : List (Node V)) : named name (pre ++ post) = named name post := by
  have hnone : named name pre = false :=
    named_eq_false_iff.2 fun n hn => Name.ne_of_lt (hpre n hn)
  rw [named, List.any_append, ← named, ← named, hnone, Bool.false_or]

/-- Whether the index holds an entry of some name. -/
def Index.HasName (ix : Index G V) (name : Name) : Prop := ∃ e ∈ ix.table.live, e.name = name

/-! ## The course of a search -/

/-- The course of a search from `holder` with `level` levels to go, after `passed` and `found`. It
goes along to the cookies of `trail`, one after another, and down every level, and ends with `p`. -/
inductive Index.Course (ix : Index G V) (name : Name) (wanted : Cookie) :
    (level : Nat) → (holder : Cookie) → (passed : List Cookie) → (found : Bool) →
      (trail : List Cookie) → (p : Predecessors) → Prop where
  /-- No level is left. -/
  | ended {holder : Cookie} {passed : List Cookie} {found : Bool} :
    Course ix name wanted 0 holder passed found [] ⟨passed, found⟩
  /-- The search goes along. -/
  | along {level : Nat} {holder next : Cookie} {passed trail : List Cookie} {found : Bool}
      {p : Predecessors} (hnext : ix.successor holder level = .ok next)
      (hmove : ix.move name wanted level next = .ok .along)
      (rest : Course ix name wanted (level + 1) next passed found trail p) :
    Course ix name wanted (level + 1) holder passed found (next :: trail) p
  /-- The search goes down, which it can below the greatest number of levels. -/
  | down {level : Nat} {holder next : Cookie} {passed trail : List Cookie} {found hit : Bool}
      {p : Predecessors} (hnext : ix.successor holder level = .ok next)
      (hmove : ix.move name wanted level next = .ok (.down hit)) (hlevel : level < maxLevels)
      (rest : Course ix name wanted level holder (holder :: passed) (found || hit) trail p) :
    Course ix name wanted (level + 1) holder passed found trail p

namespace Index.Course

variable {ix : Index G V} {name : Name} {wanted holder : Cookie} {level : Nat}
  {passed trail : List Cookie} {found : Bool} {p : Predecessors}

/-- A search takes a step for each cookie that it goes along to, and one for each level. With so
many steps it gives its result, and with fewer it gives none. -/
theorem descend_eq (h : ix.Course name wanted level holder passed found trail p) (fuel : Nat) :
    ix.descend name wanted fuel level holder passed found =
      if trail.length + level ≤ fuel then .ok p else .error .endless := by
  induction h generalizing fuel with
  | ended => simp [descend]
  | @along level holder next passed trail found p hnext hmove rest ih =>
    cases fuel with
    | zero => rw [descend, if_neg (by omega)]
    | succ fuel =>
      rw [descend, hnext, ok_bind, hmove, ok_bind]
      dsimp only
      rw [ih, List.length_cons]
      exact if_congr (by omega) rfl rfl
  | @down level holder next passed trail found hit p hnext hmove hlevel rest ih =>
    cases fuel with
    | zero => rw [descend, if_neg (by omega)]
    | succ fuel =>
      rw [descend, hnext, ok_bind, hmove, ok_bind]
      dsimp only
      rw [if_neg (Nat.not_le.2 hlevel), ih]
      exact if_congr (by omega) rfl rfl

/-- The steps of a whole search. -/
theorem searchWithin_eq (h : ix.Course name wanted ix.heads.length .null [] false trail p)
    (fuel : Nat) :
    ix.searchWithin fuel name wanted =
      if trail.length + ix.heads.length ≤ fuel then .ok p else .error .endless :=
  h.descend_eq fuel

end Index.Course

/-! ## Searching a threaded index -/

namespace Index.Threaded

variable {ix : Index G V} {ns pre post : List (Node V)} {name : Name} {wanted : Cookie}

/-- A threaded index holds the names of its nodes. -/
theorem hasName_iff (h : ix.Threaded ns) : ix.HasName name ↔ named name ns = true := by
  calc ix.HasName name ↔ name ∈ ix.table.live.map Entry.name := List.mem_map.symm
    _ ↔ name ∈ ns.map (·.name) := h.names_perm.mem_iff
    _ ↔ ∃ n ∈ ns, n.name = name := List.mem_map
    _ ↔ named name ns = true := named_iff.symm

/-- A search goes along past a node before the name. -/
theorem move_along (h : ix.Threaded (pre ++ post)) {n : Node V} (hn : n ∈ pre)
    (hlt : n.name < name) {level : Nat} (hlevel : level < n.height) :
    ix.move name wanted level n.cookie = .ok .along := by
  obtain ⟨as, bs, rfl⟩ := List.append_of_mem hn
  rw [List.append_assoc, List.cons_append] at h
  rw [move, if_neg h.cookie_ne_null, h.resolve_cookie, ok_bind]
  rw [Node.name_linked, if_neg (List.lt_asymm hlt), if_neg fun hc => Name.ne_of_lt hlt hc.1,
    Node.height_linked, if_neg (by omega)]

/-- A search goes down before a node that is not before the name, and notes whether it is the one
sought. At level 0 that tells whether there is one of the name. -/
theorem move_down (h : ix.Threaded (pre ++ post)) (hpost : ∀ n ∈ post, ¬ n.name < name)
    (hwanted : wanted = .null ∨ ∀ n ∈ post, n.name = name → n.cookie = wanted) (level : Nat) :
    ∃ hit, ix.move name wanted level (firstAt level post) = .ok (.down hit) ∧
      (hit = true → named name post = true) ∧ (level = 0 → hit = named name post) := by
  -- The level has come to its end, or to a node after the name or of the name.
  rcases low_or_first level post with hlow | ⟨as, n, bs, rfl, hlow, hn⟩
  · refine ⟨false, ?_, by simp, fun h0 => ?_⟩
    · rw [firstAt_of_low hlow, move, if_pos rfl]
    · subst h0
      rw [nil_of_low (fun m hm => (h.heights m (List.mem_append_right _ hm)).1) hlow]
      rfl
  · have hfirst : firstAt level (as ++ n :: bs) = n.cookie := by
      rw [firstAt_append_of_low hlow, firstAt_cons_of_lt hn]
    have hn_name := hpost n (by simp)
    have hlayout := h
    rw [← List.append_assoc] at hlayout
    rw [hfirst, move, if_neg hlayout.cookie_ne_null, hlayout.resolve_cookie, ok_bind,
      Node.name_linked]
    by_cases hlt : name < n.name
    · refine ⟨false, by rw [if_pos hlt], by simp, fun h0 => ?_⟩
      subst h0
      -- The first node that is not before the name comes after it, and so do all the others.
      obtain rfl : as = [] := nil_of_low (fun m hm => (h.heights m (by simp [hm])).1) hlow
      symm
      rw [List.nil_append, named_eq_false_iff, List.forall_mem_cons]
      refine ⟨(Name.ne_of_lt hlt).symm, fun m hm => ?_⟩
      exact (Name.ne_of_lt (List.lt_trans hlt (hlayout.name_lt_of_mem m hm))).symm
    · have hname : n.name = name := Name.eq_of_not_lt hn_name hlt
      have hsought : wanted = .null ∨ wanted = n.cookie := by
        rcases hwanted with hnull | hall
        · exact .inl hnull
        · exact .inr (hall n (by simp) hname).symm
      have hnamed : named name (as ++ n :: bs) = true := named_iff.2 ⟨n, by simp, hname⟩
      refine ⟨true, ?_, fun _ => hnamed, fun _ => hnamed.symm⟩
      rw [if_neg hlt, if_pos ⟨hname, hsought⟩]

/-- A search that stands after the nodes `as` of the first part goes on to the next one of its
level. -/
theorem course_along (h : ix.Threaded (pre ++ post)) (hpre : ∀ n ∈ pre, n.name < name)
    {level : Nat} {holder : Cookie} {passed trail : List Cookie} {found : Bool} {p : Predecessors}
    {as bs₁ bs₂ : List (Node V)} {n : Node V} (hsplit : pre = as ++ (bs₁ ++ n :: bs₂))
    (hholder : lastAt level .null as = holder) (hlow : ∀ m ∈ bs₁, m.height ≤ level)
    (hn : level < n.height)
    (hrest : ix.Course name wanted (level + 1) n.cookie passed found trail p) :
    ix.Course name wanted (level + 1) holder passed found (n.cookie :: trail) p := by
  have hmem : n ∈ pre := by rw [hsplit]; simp
  have hin : level < ix.heads.length :=
    Nat.lt_of_lt_of_le hn (h.heights n (List.mem_append_left _ hmem)).2
  have hmove : ix.move name wanted level n.cookie = .ok .along := h.move_along hmem (hpre n hmem) hn
  rw [hsplit, List.append_assoc] at h
  have hnext := h.successor_lastAt hin
  rw [hholder, List.append_assoc, firstAt_append_of_low hlow, List.cons_append,
    firstAt_cons_of_lt hn] at hnext
  exact .along hnext hmove hrest

/-- A search after which no node of the first part is left at its level goes down, and notes whether
it has met the name. -/
theorem course_down (h : ix.Threaded (pre ++ post)) (hpost : ∀ n ∈ post, ¬ n.name < name)
    (hwanted : wanted = .null ∨ ∀ n ∈ post, n.name = name → n.cookie = wanted)
    {level : Nat} {holder : Cookie} (hlevel : level < ix.heads.length)
    (hholder : lastAt level .null pre = holder) :
    ∃ hit, (∀ passed found trail p,
        ix.Course name wanted level holder (holder :: passed) (found || hit) trail p →
          ix.Course name wanted (level + 1) holder passed found trail p) ∧
      (hit = true → named name post = true) ∧ (level = 0 → hit = named name post) := by
  obtain ⟨hit, hmove, hhit, hzero⟩ := h.move_down hpost hwanted level
  have hnext := h.successor_lastAt hlevel
  rw [hholder] at hnext
  have hlevels : level < maxLevels := Nat.lt_of_lt_of_le hlevel h.levels
  exact ⟨hit, fun _ _ _ _ hrest => .down hnext hmove hlevels hrest, hhit, hzero⟩

/-- The course of a search that stands after the nodes `as` of the first part, with `bs` still
before it there. It passes some of these, in their order. -/
theorem exists_course (h : ix.Threaded (pre ++ post)) (hpre : ∀ n ∈ pre, n.name < name)
    (hpost : ∀ n ∈ post, ¬ n.name < name)
    (hwanted : wanted = .null ∨ ∀ n ∈ post, n.name = name → n.cookie = wanted)
    {steps level : Nat} {holder : Cookie} (passed : List Cookie) (found : Bool)
    {as bs : List (Node V)} (hsplit : pre = as ++ bs) (hstands : Stands level holder as)
    (hlevel : level ≤ ix.heads.length) (hsteps : bs.length + level ≤ steps) :
    ∃ trail, ix.Course name wanted level holder passed found trail
        ⟨((List.range level).map fun i => lastAt i .null pre) ++ passed,
          found || (decide (0 < level) && named name post)⟩ ∧
      trail.Sublist (bs.map (·.cookie)) := by
  -- By induction on the steps left; a step along takes a node off `bs`, a step down a level.
  induction steps generalizing level holder passed found as bs with
  | zero =>
    obtain rfl : level = 0 := by omega
    exact ⟨[], by simpa using .ended, List.nil_sublist _⟩
  | succ steps ih =>
    cases level with
    | zero => exact ⟨[], by simpa using .ended, List.nil_sublist _⟩
    | succ level =>
      rcases low_or_first level bs with hlow | ⟨bs₁, n, bs₂, rfl, hlow, hn⟩
      · have hholder : lastAt level .null pre = holder := by
          rw [hsplit, lastAt_append, hstands.lastAt_eq, lastAt_of_low hlow]
        obtain ⟨hit, hdown, hhit, hzero⟩ := h.course_down hpost hwanted hlevel hholder
        obtain ⟨trail, hrest, hsub⟩ := ih (holder :: passed) (found || hit) hsplit hstands.down
          (by omega) (by omega)
        refine ⟨trail, hdown _ _ _ _ ?_, hsub⟩
        -- Level 0 tells whether the name is there; a level above may have told so before.
        have hfound : (found || (decide (0 < level + 1) && named name post)) =
            (found || hit || (decide (0 < level) && named name post)) := by
          cases level with
          | zero => simp [hzero rfl]
          | succ level =>
            cases hit with
            | false => simp
            | true => simp [hhit rfl]
        rw [hfound, List.range_succ, List.map_append, List.append_assoc, List.map_singleton,
          hholder]
        exact hrest
      · have hsplit' : pre = (as ++ bs₁ ++ [n]) ++ bs₂ := by rw [hsplit]; simp
        obtain ⟨trail, hrest, hsub⟩ := ih passed found hsplit' (.node _ n hn) hlevel
          (by simp at hsteps; omega)
        refine ⟨_, h.course_along hpre hsplit hstands.lastAt_eq hlow hn hrest, ?_⟩
        rw [List.map_append, List.map_cons]
        exact (hsub.cons_cons n.cookie).trans (List.sublist_append_right _ _)

/-- The course of a search for a name. It passes nodes before the name only, in their order, and
gives at every level the last cookie passed before the name, and whether there is an entry of the
name. -/
theorem exists_search_course (h : ix.Threaded (pre ++ post)) (hpre : ∀ n ∈ pre, n.name < name)
    (hpost : ∀ n ∈ post, ¬ n.name < name)
    (hwanted : wanted = .null ∨ ∀ n ∈ post, n.name = name → n.cookie = wanted) :
    ∃ trail, ix.Course name wanted ix.heads.length .null [] false trail
        ⟨(List.range ix.heads.length).map fun i => lastAt i .null pre, named name post⟩ ∧
      trail.Sublist (pre.map (·.cookie)) := by
  obtain ⟨trail, hcourse, hsub⟩ := h.exists_course hpre hpost hwanted [] false rfl .heads
    (Nat.le_refl _) (Nat.le_refl _)
  refine ⟨trail, ?_, hsub⟩
  have hfound : (false || (decide (0 < ix.heads.length) && named name post)) = named name post := by
    rcases Nat.eq_zero_or_pos ix.heads.length with hzero | hpos
    · obtain ⟨rfl, rfl⟩ := List.append_eq_nil_iff.1 (h.nil_of_levels hzero)
      simp [named]
    · simp [hpos]
  rwa [hfound, List.append_nil] at hcourse

/-- The steps that a search is given are enough. -/
theorem length_add_levels_le (h : ix.Threaded (pre ++ post)) :
    pre.length + ix.heads.length ≤ ix.heads.length * (ix.capacity + 1) := by
  have hcap := h.length_le_capacity
  rw [List.length_append] at hcap
  rcases Nat.eq_zero_or_pos ix.heads.length with hzero | hpos
  · obtain ⟨rfl, rfl⟩ := List.append_eq_nil_iff.1 (h.nil_of_levels hzero)
    rw [hzero, Nat.zero_mul]
    exact Nat.le_refl 0
  · have hmul : 1 * ix.capacity ≤ ix.heads.length * ix.capacity := Nat.mul_le_mul_right _ hpos
    rw [Nat.mul_succ]
    omega

/-- A search for a name gives at every level the last cookie passed before the name, and whether
there is an entry of the name. -/
theorem search_eq (h : ix.Threaded (pre ++ post)) (hpre : ∀ n ∈ pre, n.name < name)
    (hpost : ∀ n ∈ post, ¬ n.name < name)
    (hwanted : wanted = .null ∨ ∀ n ∈ post, n.name = name → n.cookie = wanted) :
    ix.search name wanted =
      .ok ⟨(List.range ix.heads.length).map fun i => lastAt i .null pre, named name post⟩ := by
  obtain ⟨trail, hcourse, hsub⟩ := h.exists_search_course hpre hpost hwanted
  have hpassed := hsub.length_le
  have henough := h.length_add_levels_le
  rw [List.length_map] at hpassed
  rw [search, hcourse.searchWithin_eq, if_pos (by omega)]

/-- What a search found before the name at a level, which is null for a level not yet in use. -/
theorem before_eq (h : ix.Threaded (pre ++ post)) (found : Bool) (level : Nat) :
    Predecessors.before ⟨(List.range ix.heads.length).map fun i => lastAt i .null pre, found⟩
      level = lastAt level .null pre := by
  rw [Predecessors.before, List.getD_eq_getElem?_getD, List.getElem?_map]
  by_cases hlevel : level < ix.heads.length
  · rw [List.getElem?_range hlevel, Option.map_some, Option.getD_some]
  · have hlow : ∀ n ∈ pre, n.height ≤ level := fun n hn => by
      have := (h.heights n (by simp [hn])).2
      omega
    have hnone : (List.range ix.heads.length)[level]? = none := by
      rw [List.getElem?_eq_none_iff, List.length_range]
      omega
    rw [hnone, lastAt_of_low hlow]
    rfl

/-- A search for a name splits the nodes at it: the predecessors are those of the place of the name,
and the search tells whether some node has it. -/
theorem exists_search (h : ix.Threaded ns) (name : Name)
    (hwanted : wanted = .null ∨ ∀ n ∈ ns, n.name = name → n.cookie = wanted) :
    ∃ pre post p, ns = pre ++ post ∧ (∀ n ∈ pre, n.name < name) ∧ (∀ n ∈ post, ¬ n.name < name) ∧
      ix.search name wanted = .ok p ∧ p.found = named name ns ∧
      ∀ level, p.before level = lastAt level .null pre := by
  obtain ⟨pre, post, rfl, hpre, hpost⟩ := exists_split_at h.sorted name
  refine ⟨pre, post, _, rfl, hpre, hpost, h.search_eq hpre hpost ?_,
    (named_append_of_lt hpre post).symm, h.before_eq _⟩
  exact hwanted.imp_right fun hall n hn => hall n (List.mem_append_right pre hn)

end Index.Threaded

end NameIndex
