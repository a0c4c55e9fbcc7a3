import NameIndex.Index.Bulk
import NameIndex.Proofs.Handles

/-!
# Many operations at once

Enrolling the names of a numbering is a run of enrolments whose answers are tallied
(`enrollNumbered_eq`), so what is known of runs holds of it, and every name is counted once
(`Keeps.exists_enrollNumbered`). Removing them takes out the nodes of these names and no others
(`Layout.exists_removeNumbered`). An entry that comes and goes any number of times gets a new cookie
each time and leaves the nodes as they were (`Layout.exists_churn`).
-/

namespace NameIndex

variable {G V : Type}

/-! ## Tallies -/

namespace Tally

/-- The number of enrolments counted. -/
def total (t : Tally) : Nat := t.enrolled + t.duplicates + t.collisions

/-- Counts one more answer, if it is one to an enrolment. -/
def addAnswer (t : Tally) : Answer V → Tally
  | .enrolled c => t.add (.ok c : Except (EnrollError V) Cookie)
  | .refused error => t.add (.error error : Except (EnrollError V) Cookie)
  | _ => t

end Tally

/-- The enrolments of the names of a numbering. -/
def Numbering.enrolments (names : Numbering) : List (Operation Int) :=
  names.numbers.map fun i => .enroll { name := names.name i, value := i }

theorem Numbering.unlinked_enrolments (names : Numbering) :
    ∀ op ∈ names.enrolments, op.Unlinked := by
  rw [enrolments, List.forall_mem_map]
  exact fun _ _ => rfl

theorem Numbering.length_enrolments (names : Numbering) :
    names.enrolments.length = names.count := by
  rw [enrolments, numbers, List.length_map, List.length_map, List.length_range]

namespace Ledger

/-- The answer to an enrolment is counted once, and as an enrolment if there is one binding more. -/
theorem apply_enroll_tally (l : Ledger V) (e : Entry V) (t : Tally) :
    (t.addAnswer (l.apply (.enroll e)).1).total = t.total + 1 ∧
      (t.addAnswer (l.apply (.enroll e)).1).enrolled + l.records.length =
        t.enrolled + (l.apply (.enroll e)).2.records.length := by
  rw [apply]
  rcases l.enroll_cases e with h | ⟨c, slot, hc, h⟩ | ⟨c, slots, hc, habsent, h⟩
  · rw [h]
    refine ⟨?_, rfl⟩
    simp only [Tally.addAnswer, Tally.add, Tally.total]
    omega
  · rw [h]
    refine ⟨?_, rfl⟩
    simp only [Tally.addAnswer, Tally.add, Tally.total]
    omega
  · have hlength := (Directory.insert_perm hc habsent).length_eq
    rw [h]
    simp only [Tally.addAnswer, Tally.add, Tally.total]
    rw [hlength, List.length_cons]
    omega

/-- So it is with every answer to a run of enrolments. -/
theorem run_enrolls_tally {α : Type} (l : Ledger V) (entry : α → Entry V) (items : List α)
    (t : Tally) :
    ((l.run (items.map fun i => .enroll (entry i))).1.foldl Tally.addAnswer t).total =
        t.total + items.length ∧
      ((l.run (items.map fun i => .enroll (entry i))).1.foldl Tally.addAnswer t).enrolled +
          l.records.length =
        t.enrolled + (l.run (items.map fun i => .enroll (entry i))).2.records.length := by
  induction items generalizing l t with
  | nil => exact ⟨rfl, rfl⟩
  | cons i items ih =>
    obtain ⟨htotal, henrolled⟩ := l.apply_enroll_tally (entry i) t
    obtain ⟨htotal', henrolled'⟩ := ih (l.apply (.enroll (entry i))).2
      (t.addAnswer (l.apply (.enroll (entry i))).1)
    rw [List.map_cons, run, List.foldl_cons, List.length_cons]
    dsimp only
    omega

end Ledger

namespace Index

variable {ix ix' : Index G V} {ns : List (Node V)} {e : Entry V}

/-! ## Enrolling names -/

/-- Enrolling the names of a numbering is the run of their enrolments, with the answers tallied. -/
theorem enrollNumbered_eq [LevelSource G] (ix : Index G Int) (names : Numbering) :
    ix.enrollNumbered names =
      (ix.run names.enrolments).map fun r => (r.1.foldl Tally.addAnswer {}, r.2) := by
  rw [enrollNumbered, Numbering.enrolments]
  -- By induction on the numbers, from whatever tally and index the ones before have left.
  generalize ({} : Tally) = t
  induction names.numbers generalizing ix t with
  | nil => rfl
  | cons i numbers ih =>
    rw [List.foldlM_cons, List.map_cons, run, apply]
    dsimp only
    cases ix.enroll { name := names.name i, value := i } with
    | error f => rfl
    | ok r =>
      obtain ⟨result, ix'⟩ := r
      rw [ok_bind, ok_bind, pure_eq_ok, ok_bind, ih]
      cases result with
      | error refused =>
        dsimp only
        rw [pure_eq_ok, ok_bind]
        cases ix'.run _ <;> rfl
      | ok c =>
        dsimp only
        rw [pure_eq_ok, ok_bind]
        cases ix'.run _ <;> rfl

/-- Every name of a numbering is counted once, and there is one entry more for each that is
enrolled. -/
theorem Keeps.exists_enrollNumbered [LevelSource G] {ix : Index G Int} {ns : List (Node Int)}
    {l : Ledger Int} (h : ix.Keeps ns l) {names : Numbering}
    (hmeans : ix.AffordsAll names.enrolments) :
    ∃ tally ix' ns' l', ix.enrollNumbered names = .ok (tally, ix') ∧ ix'.Keeps ns' l' ∧
      tally.total = names.count ∧ ix'.count = ix.count + tally.enrolled := by
  obtain ⟨ix', ns', hrun, h'⟩ := h.exists_run names.unlinked_enrolments hmeans
  obtain ⟨htotal, henrolled⟩ := l.run_enrolls_tally
    (fun i => { name := names.name i, value := i }) names.numbers {}
  rw [enrollNumbered_eq, hrun]
  refine ⟨_, ix', ns', _, rfl, h', ?_, ?_⟩
  · refine htotal.trans ?_
    rw [← names.length_enrolments, Numbering.enrolments, List.length_map]
    exact Nat.zero_add _
  · rw [h.count_eq, h'.count_eq, Nat.add_comm]
    exact (henrolled.trans (Nat.zero_add _)).symm

/-! ## Removing names -/

/-- Removing a name changes nothing, or it is the removal of a cookie. -/
theorem removeName_cases {name : Name} {result : Option (Entry V)}
    (h : ix.removeName name = .ok (result, ix')) :
    (result = none ∧ ix' = ix) ∨ ∃ c, ix.remove c = .ok (result, ix') := by
  obtain ⟨found, -, hrest⟩ := bind_eq_ok_iff.1 h
  cases found with
  | none =>
    cases hrest
    exact .inl ⟨rfl, rfl⟩
  | some e => exact .inr ⟨e.cookie, hrest⟩

/-- Removing a name takes out its node, if there is one. -/
theorem Layout.exists_removeName (h : ix.Layout ns) (name : Name) :
    ∃ result ix', ix.removeName name = .ok (result, ix') ∧
      ix'.Layout (ns.filter fun n => n.name ≠ name) ∧
      ix'.count + result.toList.length = ix.count := by
  rw [removeName]
  rcases node_cases (fun n => n.name = name) ns with hnone | ⟨pre, n, post, rfl, rfl⟩
  · rw [h.lookup_none hnone, ok_bind,
      List.filter_eq_self.2 fun n hn => decide_eq_true (hnone n hn)]
    exact ⟨none, ix, rfl, h, rfl⟩
  · obtain ⟨ix', hremove, hrest, hframe⟩ := h.remove_some
    have hothers := h.name_ne
    rw [List.forall_mem_append] at hothers
    have hkeep : ((pre ++ n :: post).filter fun m => m.name ≠ n.name) = pre ++ post := by
      rw [List.filter_append, List.filter_cons_of_neg (by simp),
        List.filter_eq_self.2 fun m hm => decide_eq_true (hothers.1 m hm),
        List.filter_eq_self.2 fun m hm => decide_eq_true (hothers.2 m hm)]
    refine ⟨some n.unlinked, ix', ?_, ?_, ?_⟩
    · rw [h.lookup_some, ok_bind]
      exact hremove
    · rw [hkeep]
      exact h.of_sameFrame hrest hframe
    · rw [hrest.count, h.count, List.length_append, List.length_append, List.length_cons]
      rfl

/-- Removing the names of a numbering takes out the nodes of these names, and no others. -/
theorem Layout.exists_removeNumbered (h : ix.Layout ns) (names : Numbering) :
    ∃ removed ix', ix.removeNumbered names = .ok (removed, ix') ∧
      ix'.Layout (ns.filter fun n => n.name ∉ names.numbers.map names.name) ∧
      ix'.count + removed = ix.count := by
  -- By induction on the numbers, from whatever index the ones before have left and counting on from
  -- whatever they have counted.
  rw [removeNumbered, ← Nat.add_zero ix.count]
  generalize (0 : Nat) = before
  induction names.numbers generalizing ix ns before with
  | nil =>
    refine ⟨before, ix, rfl, ?_, rfl⟩
    have hkept : (ns.filter fun n => n.name ∉ ([] : List Int).map names.name) = ns :=
      List.filter_eq_self.2 fun n _ => decide_eq_true List.not_mem_nil
    rwa [hkept]
  | cons i numbers ih =>
    obtain ⟨result, ix₁, hremove, h₁, hcount₁⟩ := h.exists_removeName (names.name i)
    obtain ⟨removed, ix₂, hloop, h₂, hcount₂⟩ := ih h₁ (before + result.toList.length)
    refine ⟨removed, ix₂, ?_, ?_, by omega⟩
    · rw [List.foldlM_cons]
      dsimp only
      rw [hremove, ok_bind]
      cases result with
      | none => exact hloop
      | some e => exact hloop
    · rw [List.filter_filter] at h₂
      simpa only [List.map_cons, List.mem_cons, not_or, Bool.decide_and, Bool.and_comm] using h₂

/-! ## Coming and going -/

/-- The fresh cookies that an entry gets in some rounds of coming and going, the latest first. -/
structure Rounds (last rounds : Nat) (cookies : List Cookie) : Prop where
  /-- There is one for each round. -/
  length : cookies.length = rounds
  /-- None has been given out before. -/
  fresh : ∀ c ∈ cookies, last < c.val
  /-- The latest is the greatest. -/
  descending : cookies.Pairwise fun c d => d.val < c.val

/-- A round goes before the others. -/
theorem Rounds.append_first {last rounds : Nat} {cookies : List Cookie} {c : Cookie}
    (h : Rounds c.val rounds cookies) (hc : last < c.val) :
    Rounds last (rounds + 1) (cookies ++ [c]) where
  length := by rw [List.length_append, h.length, List.length_singleton]
  fresh := by
    rw [List.forall_mem_append, List.forall_mem_singleton]
    exact ⟨fun d hd => Nat.lt_trans hc (h.fresh d hd), hc⟩
  descending := by
    rw [List.pairwise_append]
    refine ⟨h.descending, List.pairwise_singleton _ _, fun d hd c' hc' => ?_⟩
    rw [List.mem_singleton.1 hc']
    exact h.fresh d hd

/-- An entry that comes and goes leaves the nodes as they were, whether it is refused or not, and
gets a new cookie in each round. What stops it is a shortage. -/
theorem Layout.exists_churn [LevelSource G] (h : ix.Layout ns) (he : e.isLinked = false)
    (got : List Cookie) (rounds : Nat) :
    (∃ f, ix.churn e got rounds = .error f ∧ f.IsShortage) ∨
      ∃ result ix', ix.churn e got rounds = .ok (result, ix') ∧ ix'.Layout ns ∧
        ∀ cookies, result = .ok cookies →
          ∃ new, cookies = new ++ got ∧ Rounds ix.lastCookie rounds new := by
  -- By induction on the rounds; the nodes are the same before each of them.
  induction rounds generalizing ix e got with
  | zero =>
    refine .inr ⟨.ok got, ix, rfl, h, fun cookies hcookies => ⟨[], ?_, rfl, ?_, .nil⟩⟩
    · cases hcookies
      rfl
    · exact fun c hc => absurd hc List.not_mem_nil
  | succ rounds ih =>
    rw [churn]
    by_cases hmeans : ix.Affords (.enroll e)
    swap
    · have hstops := h.enroll_stops he hmeans
      rw [hstops, error_bind]
      exact .inl ⟨_, rfl, ix.isShortage_shortage⟩
    rcases h.enroll_cases he hmeans with ⟨refused, last, hlast, henroll⟩ | ⟨hname, hmeans, hroom⟩
    · rw [henroll, ok_bind]
      exact .inr ⟨_, _, rfl, h.withLast hlast _, fun _ hok => nomatch hok⟩
    obtain ⟨pre, post, c, ix₁, rfl, -, -, henroll, h₁, hfirst, hlast, -⟩ :=
      h.enroll_fresh he hname hmeans hroom
    obtain ⟨ix₂, hremove, h₂, hframe⟩ := h₁.remove_some
    have hremove : ix₁.remove c = _ := hremove
    rw [henroll, ok_bind]
    dsimp only
    rw [hremove, ok_bind]
    have hunlinked : ((e.nodeUnder c (LevelSource.drawHeight ix.source).1).unlinked).isLinked =
        false := rfl
    rcases ih (h₁.of_sameFrame h₂ hframe) hunlinked (c :: got) with hstops | hdone
    · exact .inl hstops
    · obtain ⟨result, ix', hchurn, h', hnew⟩ := hdone
      refine .inr ⟨result, ix', hchurn, h', fun cookies hcookies => ?_⟩
      obtain ⟨new, rfl, hrounds⟩ := hnew cookies hcookies
      rw [hframe.lastCookie, hlast] at hrounds
      exact ⟨new ++ [c], (List.append_cons new c got), hrounds.append_first hfirst.after⟩

end Index

end NameIndex
