import NameIndex.Proofs.Bookkeeping

/-!
# Cookies are never reused

The cookies that the answers of a run give out ascend, and none of them was lost in a refusal. While
an entry is enrolled its cookie finds it, and from its removal on the cookie finds nothing, although
later entries may come to the same slot.

Both are told by ledgers. One step of a ledger gives out or loses only a cookie above all that were
spent before (`Ledger.apply_spends`), and whatever is bound after it was bound before or is bound to
such a cookie (`Ledger.bound_of_mem_apply`). So a cookie that has been spent and is not bound stays
unbound through every run (`Ledger.unbound_run`).
-/

namespace NameIndex

variable {G V : Type}

namespace Answer

/-- The cookie that an answer gives out. -/
def granted : Answer V → Option Cookie
  | .enrolled c => some c
  | _ => none

/-- The cookie that is lost with an answer, as every slot was occupied. -/
def lost : Answer V → Option Cookie
  | .refused ⟨.cookieCollision c _, _⟩ => some c
  | _ => none

end Answer

/-- Whether an operation ends the time of the entry of a cookie. -/
def Operation.Ends (c : Cookie) : Operation V → Prop
  | .remove d => d = c
  | .drain => True
  | _ => False

/-- Answers whose cookies are all above a number and spent once, those given out in ascending
order. -/
structure Spends (last : Nat) (answers : List (Answer V)) : Prop where
  /-- The cookies given out are above the number. -/
  granted : ∀ c ∈ answers.filterMap Answer.granted, last < c.val
  /-- So are those lost. -/
  lost : ∀ c ∈ answers.filterMap Answer.lost, last < c.val
  /-- The cookies given out ascend. -/
  ascending : (answers.filterMap Answer.granted).Pairwise fun c d => c.val < d.val
  /-- No cookie lost is given out. -/
  apart : ∀ c ∈ answers.filterMap Answer.lost, c ∉ answers.filterMap Answer.granted

namespace Spends

variable {last last' : Nat} {a : Answer V} {answers : List (Answer V)} {c : Cookie}

theorem nil (last : Nat) : Spends last ([] : List (Answer V)) where
  granted := fun _ hc => absurd hc List.not_mem_nil
  lost := fun _ hc => absurd hc List.not_mem_nil
  ascending := .nil
  apart := fun _ hc => absurd hc List.not_mem_nil

/-- An answer without a cookie. -/
theorem cons_none (h : Spends last answers) (hgranted : a.granted = none) (hlost : a.lost = none) :
    Spends last (a :: answers) := by
  have hg : (a :: answers).filterMap Answer.granted = answers.filterMap Answer.granted :=
    List.filterMap_cons_none hgranted
  have hl : (a :: answers).filterMap Answer.lost = answers.filterMap Answer.lost :=
    List.filterMap_cons_none hlost
  constructor
  · rw [hg]
    exact h.granted
  · rw [hl]
    exact h.lost
  · rw [hg]
    exact h.ascending
  · rw [hg, hl]
    exact h.apart

/-- An answer that gives out a cookie below those to come. -/
theorem cons_granted (h : Spends c.val answers) (hlast : last < c.val)
    (hgranted : a.granted = some c) (hlost : a.lost = none) : Spends last (a :: answers) := by
  have hg : (a :: answers).filterMap Answer.granted = c :: answers.filterMap Answer.granted :=
    List.filterMap_cons_some hgranted
  have hl : (a :: answers).filterMap Answer.lost = answers.filterMap Answer.lost :=
    List.filterMap_cons_none hlost
  constructor
  · rw [hg, List.forall_mem_cons]
    exact ⟨hlast, fun d hd => Nat.lt_trans hlast (h.granted d hd)⟩
  · rw [hl]
    exact fun d hd => Nat.lt_trans hlast (h.lost d hd)
  · rw [hg, List.pairwise_cons]
    exact ⟨h.granted, h.ascending⟩
  · rw [hg, hl]
    intro d hd hmem
    rcases List.mem_cons.1 hmem with rfl | hmem
    · exact Nat.lt_irrefl _ (h.lost d hd)
    · exact h.apart d hd hmem

/-- An answer that loses a cookie below those to come. -/
theorem cons_lost (h : Spends c.val answers) (hlast : last < c.val)
    (hgranted : a.granted = none) (hlost : a.lost = some c) : Spends last (a :: answers) := by
  have hg : (a :: answers).filterMap Answer.granted = answers.filterMap Answer.granted :=
    List.filterMap_cons_none hgranted
  have hl : (a :: answers).filterMap Answer.lost = c :: answers.filterMap Answer.lost :=
    List.filterMap_cons_some hlost
  constructor
  · rw [hg]
    exact fun d hd => Nat.lt_trans hlast (h.granted d hd)
  · rw [hl, List.forall_mem_cons]
    exact ⟨hlast, fun d hd => Nat.lt_trans hlast (h.lost d hd)⟩
  · rw [hg]
    exact h.ascending
  · rw [hg, hl, List.forall_mem_cons]
    exact ⟨fun hmem => Nat.lt_irrefl _ (h.granted c hmem), h.apart⟩

end Spends

namespace Ledger

variable {l : Ledger V} {op : Operation V} {ops : List (Operation V)} {e : Entry V} {c : Cookie}
  {r : Record V}

/-! ## One step -/

/-- A step spends no cookie, or it gives out or loses one that is above all that were spent
before. -/
theorem apply_spends (l : Ledger V) (op : Operation V) :
    ((l.apply op).1.granted = none ∧ (l.apply op).1.lost = none ∧ (l.apply op).2.last = l.last) ∨
      ∃ c, l.last < c.val ∧ (l.apply op).2.last = c.val ∧
        (((l.apply op).1.granted = some c ∧ (l.apply op).1.lost = none) ∨
          ((l.apply op).1.granted = none ∧ (l.apply op).1.lost = some c)) := by
  cases op with
  | enroll e =>
    rw [apply]
    rcases l.enroll_cases e with h | ⟨c, slot, hc, h⟩ | ⟨c, slots, hc, -, h⟩
    · rw [h]
      exact .inl ⟨rfl, rfl, rfl⟩
    · rw [h]
      exact .inr ⟨c, hc, rfl, .inr ⟨rfl, rfl⟩⟩
    · rw [h]
      exact .inr ⟨c, hc, rfl, .inl ⟨rfl, rfl⟩⟩
  | _ => exact .inl ⟨rfl, rfl, rfl⟩

/-- The last cookie spent never goes back. -/
theorem last_le_apply (l : Ledger V) (op : Operation V) : l.last ≤ (l.apply op).2.last := by
  rcases l.apply_spends op with ⟨-, -, hlast⟩ | ⟨c, hc, hlast, -⟩ <;> omega

/-- An entry that is enrolled is bound to its cookie, which is then the last one spent. -/
theorem mem_of_enrolled (h : (l.apply (.enroll e)).1 = .enrolled c) :
    ⟨e.name, e.value, c⟩ ∈ (l.apply (.enroll e)).2.records ∧
      (l.apply (.enroll e)).2.last = c.val := by
  rw [apply] at h ⊢
  rcases l.enroll_cases e with h' | ⟨c', slot, hc, h'⟩ | ⟨c', slots, hc, habsent, h'⟩
  · rw [h'] at h
    cases h
  · rw [h'] at h
    cases h
  · rw [h'] at h ⊢
    cases h
    exact ⟨(Directory.mem_insert_iff hc habsent).2 (.inl rfl), rfl⟩

/-- What is bound stays bound to its name unless the step ends it. -/
theorem exists_mem_apply (hr : r ∈ l.records) (hop : ¬ op.Ends r.cookie) :
    ∃ r' ∈ (l.apply op).2.records, r'.cookie = r.cookie ∧ r'.name = r.name := by
  cases op with
  | enroll e =>
    refine ⟨r, ?_, rfl, rfl⟩
    rw [apply]
    rcases l.enroll_cases e with h | ⟨c, slot, hc, h⟩ | ⟨c, slots, hc, habsent, h⟩
    · rw [h]
      exact hr
    · rw [h]
      exact hr
    · rw [h]
      exact (Directory.mem_insert_iff hc habsent).2 (.inr hr)
  | remove c => exact ⟨r, List.mem_filter.2 ⟨hr, decide_eq_true (Ne.symm hop)⟩, rfl, rfl⟩
  | drain => exact absurd trivial hop
  | set c v =>
    exact ⟨r.setValue c v, List.mem_map_of_mem hr, r.cookie_setValue c v, r.name_setValue c v⟩
  | _ => exact ⟨r, hr, rfl, rfl⟩

/-- A cookie bound after a step was bound before, unless it is above all that were spent before. -/
theorem bound_of_mem_apply (hr : r ∈ (l.apply op).2.records) :
    (∃ r' ∈ l.records, r'.cookie = r.cookie) ∨ l.last < r.cookie.val := by
  cases op with
  | enroll e =>
    rw [apply] at hr
    rcases l.enroll_cases e with h | ⟨c, slot, hc, h⟩ | ⟨c, slots, hc, habsent, h⟩
    · rw [h] at hr
      exact .inl ⟨r, hr, rfl⟩
    · rw [h] at hr
      exact .inl ⟨r, hr, rfl⟩
    · rw [h] at hr
      rcases (Directory.mem_insert_iff hc habsent).1 hr with rfl | hr
      · exact .inr hc
      · exact .inl ⟨r, hr, rfl⟩
  | remove c => exact .inl ⟨r, (List.mem_filter.1 hr).1, rfl⟩
  | drain => exact .inl ⟨r, (List.mem_filter.1 hr).1, rfl⟩
  | set c v =>
    obtain ⟨r', hr', rfl⟩ := List.mem_map.1 hr
    exact .inl ⟨r', hr', (r'.cookie_setValue c v).symm⟩
  | _ => exact .inl ⟨r, hr, rfl⟩

/-- A cookie is not bound after a step that ends it. -/
theorem unbound_of_ends (hop : op.Ends c) : ∀ r ∈ (l.apply op).2.records, r.cookie ≠ c := by
  intro r hr
  cases op with
  | remove d =>
    obtain rfl : d = c := hop
    exact of_decide_eq_true (List.mem_filter.1 hr).2
  | drain => exact absurd (List.mem_filter.1 hr).2 (by decide)
  | _ => exact absurd hop not_false

/-! ## Runs -/

/-- A run spends cookies above those spent before it, each once. -/
theorem run_spends (l : Ledger V) (ops : List (Operation V)) : Spends l.last (l.run ops).1 := by
  -- By induction on the operations; the cookies of the later ones are above that of the first.
  induction ops generalizing l with
  | nil => exact .nil l.last
  | cons op ops ih =>
    have hrest := ih (l.apply op).2
    rcases l.apply_spends op with ⟨hgranted, hlost, hlast⟩ | ⟨c, hc, hlast, hspent⟩
    · rw [hlast] at hrest
      exact hrest.cons_none hgranted hlost
    · rw [hlast] at hrest
      rcases hspent with ⟨hgranted, hlost⟩ | ⟨hgranted, hlost⟩
      · exact hrest.cons_granted hc hgranted hlost
      · exact hrest.cons_lost hc hgranted hlost

/-- What is bound stays bound to its name through a run that does not end it. -/
theorem exists_mem_run (hr : r ∈ l.records) (hops : ∀ op ∈ ops, ¬ op.Ends r.cookie) :
    ∃ r' ∈ (l.run ops).2.records, r'.cookie = r.cookie ∧ r'.name = r.name := by
  induction ops generalizing l r with
  | nil => exact ⟨r, hr, rfl, rfl⟩
  | cons op ops ih =>
    rw [List.forall_mem_cons] at hops
    obtain ⟨r₁, hr₁, hcookie₁, hname₁⟩ := exists_mem_apply hr hops.1
    rw [← hcookie₁] at hops
    obtain ⟨r₂, hr₂, hcookie₂, hname₂⟩ := ih hr₁ hops.2
    exact ⟨r₂, hr₂, hcookie₂.trans hcookie₁, hname₂.trans hname₁⟩

/-- A cookie that has been spent and is not bound stays unbound. -/
theorem unbound_run (hc : ∀ r ∈ l.records, r.cookie ≠ c) (hspent : c.val ≤ l.last)
    (ops : List (Operation V)) : ∀ r ∈ (l.run ops).2.records, r.cookie ≠ c := by
  induction ops generalizing l with
  | nil => exact hc
  | cons op ops ih =>
    refine ih (fun r hr hcookie => ?_) (Nat.le_trans hspent (l.last_le_apply op))
    rcases bound_of_mem_apply hr with ⟨r', hr', hcookie'⟩ | hfresh
    · exact hc r' hr' (hcookie'.trans hcookie)
    · rw [hcookie] at hfresh
      omega

/-- A cookie that has been spent is not bound after a run that ends it. -/
theorem unbound_run_of_ends (hspent : c.val ≤ l.last) (hops : ∃ op ∈ ops, op.Ends c) :
    ∀ r ∈ (l.run ops).2.records, r.cookie ≠ c := by
  induction ops generalizing l with
  | nil =>
    obtain ⟨op, hop, -⟩ := hops
    exact absurd hop List.not_mem_nil
  | cons op ops ih =>
    have hspent' := Nat.le_trans hspent (l.last_le_apply op)
    obtain ⟨op', hop', hends⟩ := hops
    rcases List.mem_cons.1 hop' with rfl | hop'
    · exact unbound_run (unbound_of_ends hends) hspent' ops
    · exact ih hspent' ⟨op', hop', hends⟩

/-- An entry that a run enrols is bound to its cookie until an operation ends it, and not from then
on. -/
theorem bound_until_ended {i : Nat} (hop : ops[i]? = some (.enroll e))
    (hanswer : (l.run ops).1[i]? = some (.enrolled c)) :
    ((∀ op ∈ ops.drop (i + 1), ¬ op.Ends c) →
        ∃ r ∈ (l.run ops).2.records, r.cookie = c ∧ r.name = e.name) ∧
      ((∃ op ∈ ops.drop (i + 1), op.Ends c) → ∀ r ∈ (l.run ops).2.records, r.cookie ≠ c) := by
  -- By induction on the operations, up to the enrolment; after it the facts about runs apply.
  induction ops generalizing l i with
  | nil => simp at hop
  | cons op ops ih =>
    cases i with
    | zero =>
      obtain rfl : op = .enroll e := Option.some.inj hop
      obtain ⟨hmem, hlast⟩ := mem_of_enrolled (Option.some.inj hanswer)
      have hspent : c.val ≤ (l.apply (.enroll e)).2.last := Nat.le_of_eq hlast.symm
      have hended : (∃ op ∈ ops, op.Ends c) →
          ∀ r ∈ ((l.apply (.enroll e)).2.run ops).2.records, r.cookie ≠ c :=
        unbound_run_of_ends hspent
      exact ⟨fun hops => exists_mem_run hmem hops, hended⟩
    | succ i => exact ih hop hanswer

end Ledger

namespace Index

/-- A cookie finds nothing in the index, and its removal changes nothing. -/
structure Unknown (ix : Index G V) (c : Cookie) : Prop where
  /-- It has no entry. -/
  get : ix.get? c = none
  /-- It is not held. -/
  contains : ix.contains c = false
  /-- It has no value to change. -/
  set : ∀ v, ix.setValue c v = (none, ix)
  /-- There is nothing to remove. -/
  remove : ix.remove c = .ok (none, ix)
  /-- Nothing comes after it. -/
  next : ix.next c = .ok none
  /-- Nothing comes before it. -/
  prev : ix.prev c = .ok none

/-- A cookie that no node carries is unknown. -/
theorem Layout.unknown {ix : Index G V} {ns : List (Node V)} (h : ix.Layout ns) {c : Cookie}
    (hc : ∀ n ∈ ns, n.cookie ≠ c) : ix.Unknown c := by
  have hget : ix.get? c = none := h.get?_eq_none_iff.2 hc
  have hcontains : ix.contains c = false := by
    rw [Index.contains, hget]
    rfl
  exact ⟨hget, hcontains, h.setValue_none hc, h.remove_none hc, h.next_none hc, h.prev_none hc⟩

/-- Every run that a new index affords gives out cookies in ascending order, none of them null or
lost in a refusal. The cookie of an entry finds it, by its name and cookie, until an operation
removes the cookie or drains the index, and from then on it finds nothing. -/
theorem cookies_spent_once [LevelSource G] {config : Config} {entropy : UInt64} {ix₀ : Index G V}
    (hcreate : create config entropy = .ok ix₀) {ops : List (Operation V)}
    (hops : ∀ op ∈ ops, op.Unlinked) (hmeans : ix₀.AffordsAll ops) :
    ∃ answers ix, ix₀.run ops = .ok (answers, ix) ∧
      answers.length = ops.length ∧
      (answers.filterMap Answer.granted).Pairwise (fun c d => c.val < d.val) ∧
      (∀ c ∈ answers.filterMap Answer.granted, c ≠ .null) ∧
      (∀ c ∈ answers.filterMap Answer.lost, c ∉ answers.filterMap Answer.granted) ∧
      ∀ i e c, ops[i]? = some (.enroll e) → answers[i]? = some (.enrolled c) →
        ((∀ op ∈ ops.drop (i + 1), ¬ op.Ends c) →
          ∃ e', ix.get? c = some e' ∧ e'.name = e.name ∧ e'.cookie = c) ∧
        ((∃ op ∈ ops.drop (i + 1), op.Ends c) → ix.Unknown c) := by
  obtain ⟨ix, ns, hrun, h⟩ := (new_of_create hcreate).keeps.exists_run hops hmeans
  have hspends := Ledger.run_spends (.empty config.firstSlots config.mostSlots) ops
  refine ⟨_, ix, hrun, Ledger.length_run _ ops, hspends.ascending, fun c hc hnull => ?_,
    hspends.apart, fun i e c hop hanswer => ?_⟩
  · have hpos := hspends.granted c hc
    rw [hnull] at hpos
    exact Nat.not_lt_zero _ hpos
  · obtain ⟨hbound, hended⟩ := Ledger.bound_until_ended hop hanswer
    refine ⟨fun hlasts => ?_, fun hends => h.layout.unknown fun n hn => ?_⟩
    · obtain ⟨r, hr, rfl, hname⟩ := hbound hlasts
      rw [h.records] at hr
      obtain ⟨n, hn, rfl⟩ := List.mem_map.1 hr
      obtain ⟨pre, post, rfl⟩ := List.append_of_mem hn
      exact ⟨_, h.layout.get?_cookie, hname, rfl⟩
    · have hrecords := hended hends
      rw [h.records, List.forall_mem_map] at hrecords
      exact hrecords n hn

/-- The first entry leaves its slot to the third, whose cookie is another one. -/
theorem cookies_spent_once_slot :
    ∃ ix₀ : Index ChaCha Nat, create ⟨2, 2, none⟩ 0 = .ok ix₀ ∧ ∃ answers ix, ix₀.run
        [.enroll ⟨[97], 7, .null, [], .null⟩, .enroll ⟨[98], 8, .null, [], .null⟩, .remove ⟨1⟩,
          .enroll ⟨[99], 9, .null, [], .null⟩] = .ok (answers, ix) ∧
      answers.filterMap Answer.granted = [⟨1⟩, ⟨2⟩, ⟨3⟩] ∧ ix.Unknown ⟨1⟩ ∧
      ∃ e, ix.get? ⟨3⟩ = some e ∧ e.name = [99] ∧ e.cookie = ⟨3⟩ := by
  have hops : ∀ op ∈ [Operation.enroll ⟨[97], 7, .null, [], .null⟩,
      .enroll ⟨[98], 8, .null, [], .null⟩, .remove ⟨1⟩, .enroll ⟨[99], 9, .null, [], .null⟩],
      Operation.Unlinked (V := Nat) op := by
    intro op hop
    simp only [List.mem_cons, List.not_mem_nil, or_false] at hop
    rcases hop with rfl | rfl | rfl | rfl
    · exact rfl
    · exact rfl
    · trivial
    · exact rfl
  have hfits : Config.Fits ⟨2, 2, none⟩ := ⟨by decide, by decide, by decide⟩
  obtain ⟨ix₀, hcreate, hnew⟩ := exists_create (G := ChaCha) (V := Nat) hfits 0
  have hmeans := hnew.keeps.affordsAll_of_goodFor hops (hnew.goodFor (by decide) (by decide))
  obtain ⟨answers, ix, hrun, -, -, -, -, hbound⟩ := cookies_spent_once hcreate hops hmeans
  obtain ⟨ix', ns, hrun', -⟩ := hnew.keeps.exists_run hops hmeans
  -- The ledger tells the answers, in which the draws have no part.
  obtain ⟨rfl, rfl⟩ := Prod.mk.inj (Except.ok.inj (hrun.symm.trans hrun'))
  obtain ⟨-, hended⟩ := hbound 0 _ ⟨1⟩ rfl (by decide +kernel)
  obtain ⟨hlasts, -⟩ := hbound 3 _ ⟨3⟩ rfl (by decide +kernel)
  refine ⟨ix₀, hcreate, _, ix, hrun, by decide +kernel, hended ⟨.remove ⟨1⟩, by simp, rfl⟩, ?_⟩
  exact hlasts fun op hop => absurd hop List.not_mem_nil

end Index

end NameIndex
