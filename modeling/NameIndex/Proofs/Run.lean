import NameIndex.Proofs.Admission
import NameIndex.Proofs.Create
import NameIndex.Proofs.Deque
import NameIndex.Proofs.Remove

/-!
# Runs of operations

Every operation on a laid-out index gives an answer and leaves a laid-out index
(`Layout.exists_apply`), so every run does (`Layout.exists_run`), as long as the index can give or
refuse cookies to the new names that come (`Affords`). A new index is laid out, and so is an index
that passes its check. No run from either stops for another reason: the contradictions that the
operations look for on their way cannot come up (`Layout.run_stops`).
-/

namespace NameIndex

variable {G V : Type}

/-- Whether an operation hands over no entry, or one that the caller owns. -/
def Operation.Unlinked : Operation V → Prop
  | .enroll e => e.isLinked = false
  | _ => True

/-- Whether a fault is one that an index runs into without any contradiction: no cookie is left, or
no room for a table. -/
def Fault.IsShortage (f : Fault) : Prop := f = .cookiesSpent ∨ f = .noRoom

namespace Index

variable {ix ix' : Index G V} {ns : List (Node V)}

theorem isShortage_shortage (ix : Index G V) : ix.shortage.IsShortage := by
  rw [shortage]
  split_ifs
  · exact .inl rfl
  · exact .inr rfl

/-- Whether the index can answer an operation. Only a new name asks for anything. -/
def Affords (ix : Index G V) : Operation V → Prop
  | .enroll e => ix.HasName e.name ∨ ix.HasMeans
  | _ => True

/-- Whether the index can answer each of some operations when its turn comes. -/
def AffordsAll [LevelSource G] : Index G V → List (Operation V) → Prop
  | _, [] => True
  | ix, op :: ops => ix.Affords op ∧
      ∀ answer ix', ix.apply op = .ok (answer, ix') → ix'.AffordsAll ops

namespace Layout

/-- An index that affords a new name has the means for it. -/
theorem hasMeans_of_affords (h : ix.Layout ns) {e : Entry V} (hname : named e.name ns = false)
    (hmeans : ix.Affords (.enroll e)) : ix.HasMeans := by
  refine hmeans.resolve_left ?_
  rw [h.hasName_iff, hname]
  decide

/-- An enrolment that the index affords is refused, which costs draws and perhaps a cookie, or the
name is new and there is room for it. -/
theorem enroll_cases [LevelSource G] (h : ix.Layout ns) {e : Entry V} (he : e.isLinked = false)
    (hmeans : ix.Affords (.enroll e)) :
    (∃ refused last, ix.lastCookie ≤ last ∧ ix.enroll e = .ok (.error refused,
      { ix with lastCookie := last, source := (LevelSource.drawHeight ix.source).2 })) ∨
      named e.name ns = false ∧ ix.HasMeans ∧ ix.count < ix.grownCapacity := by
  cases hname : named e.name ns with
  | true => exact .inl ⟨_, _, Nat.le_refl _, h.enroll_duplicate he hname⟩
  | false =>
    have hmeans := h.hasMeans_of_affords hname hmeans
    rcases Nat.lt_or_ge ix.count ix.grownCapacity with hroom | hfull
    · exact .inr ⟨rfl, hmeans, hroom⟩
    · exact .inl ⟨_, _, Nat.le_succ _, h.enroll_full he hname hmeans hfull⟩

/-- An enrolment of an unlinked entry that the index affords gives an answer, whatever height is
drawn. -/
theorem exists_enroll [LevelSource G] (h : ix.Layout ns) {e : Entry V} (he : e.isLinked = false)
    (hmeans : ix.Affords (.enroll e)) :
    ∃ result ix' ns', ix.enroll e = .ok (result, ix') ∧ ix'.Layout ns' := by
  rcases h.enroll_cases he hmeans with ⟨refused, last, hlast, henroll⟩ | ⟨hname, hmeans, hroom⟩
  · exact ⟨_, _, ns, henroll, h.withLast hlast _⟩
  · obtain ⟨pre, post, c, ix', -, -, -, henroll, hlayout, -⟩ :=
      h.enroll_fresh he hname hmeans hroom
    exact ⟨_, ix', _, henroll, hlayout⟩

theorem exists_remove (h : ix.Layout ns) (c : Cookie) :
    ∃ e ix' ns', ix.remove c = .ok (e, ix') ∧ ix'.Layout ns' := by
  obtain ⟨ix', hremove, hrest, hframe⟩ := h.toThreaded.exists_remove c
  exact ⟨_, ix', _, hremove, h.of_sameFrame hrest hframe⟩

theorem exists_setValue (h : ix.Layout ns) (c : Cookie) (v : V) :
    ∃ ns', (ix.setValue c v).2.Layout ns' := by
  rcases node_cases (fun n => n.cookie = c) ns with hnone | ⟨pre, n, post, rfl, rfl⟩
  · rw [h.setValue_none hnone v]
    exact ⟨ns, h⟩
  · obtain ⟨table, hset, -, hlayout⟩ := h.setValue_some v
    rw [hset]
    exact ⟨_, hlayout⟩

/-- Every reading of one entry gives an answer. -/
theorem exists_next (h : ix.Layout ns) (c : Cookie) : ∃ e, ix.next c = .ok e := by
  rcases node_cases (fun n => n.cookie = c) ns with hnone | ⟨pre, n, post, rfl, rfl⟩
  · exact ⟨none, h.next_none hnone⟩
  · exact ⟨_, h.next_eq⟩

theorem exists_prev (h : ix.Layout ns) (c : Cookie) : ∃ e, ix.prev c = .ok e := by
  rcases node_cases (fun n => n.cookie = c) ns with hnone | ⟨pre, n, post, rfl, rfl⟩
  · exact ⟨none, h.prev_none hnone⟩
  · exact ⟨_, h.prev_eq⟩

/-- A reading that gives an answer leaves the index as it is. -/
theorem exists_read (h : ix.Layout ns) {answer : Except Fault (Answer V)}
    (hanswer : ∃ a, answer = .ok a) :
    ∃ a ix' ns', ix.read answer = .ok (a, ix') ∧ ix'.Layout ns' := by
  obtain ⟨a, rfl⟩ := hanswer
  exact ⟨a, ix, ns, rfl, h⟩

theorem exists_readEntry (h : ix.Layout ns) {entry : Except Fault (Option (Entry V))}
    (hentry : ∃ e, entry = .ok e) :
    ∃ a ix' ns', ix.readEntry entry = .ok (a, ix') ∧ ix'.Layout ns' := by
  obtain ⟨e, rfl⟩ := hentry
  exact h.exists_read ⟨_, rfl⟩

/-- Every operation that a laid-out index affords gives an answer and leaves a laid-out index. -/
theorem exists_apply [LevelSource G] (h : ix.Layout ns) {op : Operation V} (hop : op.Unlinked)
    (hmeans : ix.Affords op) :
    ∃ answer ix' ns', ix.apply op = .ok (answer, ix') ∧ ix'.Layout ns' := by
  cases op with
  | enroll e =>
    obtain ⟨result, ix', ns', henroll, hlayout⟩ := h.exists_enroll hop hmeans
    rw [apply, henroll]
    cases result with
    | error refused => exact ⟨_, ix', ns', rfl, hlayout⟩
    | ok c => exact ⟨_, ix', ns', rfl, hlayout⟩
  | remove c =>
    obtain ⟨e, ix', ns', hremove, hlayout⟩ := h.exists_remove c
    rw [apply, hremove]
    exact ⟨_, ix', ns', rfl, hlayout⟩
  | drain =>
    obtain ⟨ix', hdrain, hlayout, -⟩ := h.drain_eq
    rw [apply, hdrain]
    exact ⟨_, ix', [], rfl, hlayout⟩
  | get c => exact h.exists_readEntry ⟨_, rfl⟩
  | contains c => exact h.exists_read ⟨_, rfl⟩
  | set c v =>
    obtain ⟨ns', hlayout⟩ := h.exists_setValue c v
    exact ⟨_, _, ns', rfl, hlayout⟩
  | first => exact h.exists_readEntry ⟨_, h.first_eq⟩
  | last => exact h.exists_readEntry ⟨_, h.last_eq⟩
  | next c => exact h.exists_readEntry (h.exists_next c)
  | prev c => exact h.exists_readEntry (h.exists_prev c)
  | lookup name =>
    obtain ⟨pre, post, rfl, hpre, hpost⟩ := exists_split_at h.sorted name
    exact h.exists_readEntry ⟨_, h.lookup_eq hpre hpost⟩
  | seek name =>
    obtain ⟨pre, post, rfl, hpre, hpost⟩ := exists_split_at h.sorted name
    exact h.exists_readEntry ⟨_, h.seek_eq hpre hpost⟩
  | floor name =>
    obtain ⟨pre, post, rfl, hpre, hpost⟩ := exists_split_at h.sorted name
    exact h.exists_readEntry ⟨_, h.floor_eq hpre hpost⟩
  | list start side =>
    obtain ⟨pre, post, rfl, hcursor, -⟩ := h.exists_cursorAt start
    have hall := h.popAll_eq side
    refine h.exists_read ⟨.records ((side.order (weave [] (lastOf .null pre) post)).map
      Entry.record), ?_⟩
    rw [hcursor, ok_bind, hall]
    rfl
  | pop start sides =>
    obtain ⟨pre, post, rfl, hcursor, -⟩ := h.exists_cursorAt start
    have hlayout : ix.Layout (pre ++ post ++ []) := by rwa [List.append_nil]
    refine h.exists_read ⟨.popped ((Side.take sides (weave [] (lastOf .null pre) post)).1.map
      fun e => e.map Entry.record), ?_⟩
    rw [hcursor, ok_bind, hlayout.popEach_eq sides]
    rfl
  | startingWith stem =>
    obtain ⟨pre, post, rfl, hpre, hpost⟩ := exists_split_at h.sorted stem
    refine h.exists_read ⟨.records (((weave [] (lastOf .null pre) post).takeWhile fun e =>
      stem.isPrefixOf e.name).map Entry.record), ?_⟩
    rw [h.startingWith_eq hpre hpost]
    rfl
  | check =>
    refine h.exists_read ⟨.number ix.count, ?_⟩
    rw [h.check_eq]
    rfl
  | length => exact h.exists_read ⟨_, rfl⟩
  | isEmpty => exact h.exists_read ⟨_, rfl⟩
  | capacity => exact h.exists_read ⟨_, rfl⟩

/-- An enrolment that a laid-out index does not afford stops at what the index is short of. -/
theorem enroll_stops [LevelSource G] (h : ix.Layout ns) {e : Entry V} (he : e.isLinked = false)
    (hmeans : ¬ ix.Affords (.enroll e)) : ix.enroll e = .error ix.shortage := by
  obtain ⟨hnew, hmeans⟩ := not_or.1 hmeans
  rw [h.hasName_iff, Bool.not_eq_true] at hnew
  exact h.enroll_eq_error he hnew hmeans

/-- So does every operation. -/
theorem apply_eq_error [LevelSource G] (h : ix.Layout ns) {op : Operation V} (hop : op.Unlinked)
    (hmeans : ¬ ix.Affords op) : ix.apply op = .error ix.shortage := by
  cases op with
  | enroll e => rw [apply, h.enroll_stops hop hmeans, error_bind]
  | _ => exact absurd trivial hmeans

/-- Every run from a laid-out index answers all its operations, if the index affords them, and
leaves a laid-out index. -/
theorem exists_run [LevelSource G] (h : ix.Layout ns) {ops : List (Operation V)}
    (hops : ∀ op ∈ ops, op.Unlinked) (hmeans : ix.AffordsAll ops) :
    ∃ answers ix' ns', ix.run ops = .ok (answers, ix') ∧ answers.length = ops.length ∧
      ix'.Layout ns' := by
  -- By induction on the operations, from whatever index the ones before have left.
  induction ops generalizing ix ns with
  | nil => exact ⟨[], ix, ns, rfl, rfl, h⟩
  | cons op ops ih =>
    rw [List.forall_mem_cons] at hops
    obtain ⟨answer, ix₁, ns₁, happly, h₁⟩ := h.exists_apply hops.1 hmeans.1
    obtain ⟨answers, ix₂, ns₂, hrun, hlen, h₂⟩ := ih h₁ hops.2 (hmeans.2 _ _ happly)
    refine ⟨answer :: answers, ix₂, ns₂, ?_, congrArg (· + 1) hlen, h₂⟩
    rw [run, happly, ok_bind]
    dsimp only
    rw [hrun]
    rfl

/-- A run that the index does not afford stops, and for no other reason. -/
theorem run_stops [LevelSource G] (h : ix.Layout ns) {ops : List (Operation V)}
    (hops : ∀ op ∈ ops, op.Unlinked) (hmeans : ¬ ix.AffordsAll ops) :
    ∃ f, ix.run ops = .error f ∧ f.IsShortage := by
  induction ops generalizing ix ns with
  | nil => exact absurd trivial hmeans
  | cons op ops ih =>
    rw [List.forall_mem_cons] at hops
    by_cases hop : ix.Affords op
    · -- It is a later operation that is not afforded.
      obtain ⟨answer, ix₁, ns₁, happly, h₁⟩ := h.exists_apply hops.1 hop
      have hrest : ¬ ix₁.AffordsAll ops := fun hrest => hmeans ⟨hop, fun answer' ix' happly' => by
        rw [happly] at happly'
        cases happly'
        exact hrest⟩
      obtain ⟨f, hrun, hf⟩ := ih h₁ hops.2 hrest
      refine ⟨f, ?_, hf⟩
      rw [run, happly, ok_bind]
      dsimp only
      rw [hrun, error_bind]
    · refine ⟨_, ?_, ix.isShortage_shortage⟩
      rw [run, h.apply_eq_error hops.1 hop, error_bind]

/-- The runs that come to their end are those that the index affords. -/
theorem exists_run_iff [LevelSource G] (h : ix.Layout ns) {ops : List (Operation V)}
    (hops : ∀ op ∈ ops, op.Unlinked) :
    (∃ answers ix', ix.run ops = .ok (answers, ix')) ↔ ix.AffordsAll ops := by
  constructor
  · rintro ⟨answers, ix', hrun⟩
    by_contra hmeans
    obtain ⟨f, hstops, -⟩ := h.run_stops hops hmeans
    rw [hrun] at hstops
    cases hstops
  · intro hmeans
    obtain ⟨answers, ix', ns', hrun, -⟩ := h.exists_run hops hmeans
    exact ⟨answers, ix', hrun⟩

/-- An operation stops for want of cookies or of room, or not at all. -/
theorem isShortage_of_apply [LevelSource G] (h : ix.Layout ns) {op : Operation V}
    (hop : op.Unlinked) {f : Fault} (hstops : ix.apply op = .error f) : f.IsShortage := by
  by_cases hmeans : ix.Affords op
  · obtain ⟨answer, ix', ns', happly, -⟩ := h.exists_apply hop hmeans
    rw [happly] at hstops
    cases hstops
  · rw [h.apply_eq_error hop hmeans] at hstops
    cases hstops
    exact ix.isShortage_shortage

/-- So does a run. -/
theorem isShortage_of_run [LevelSource G] (h : ix.Layout ns) {ops : List (Operation V)}
    (hops : ∀ op ∈ ops, op.Unlinked) {f : Fault} (hstops : ix.run ops = .error f) :
    f.IsShortage := by
  have hmeans : ¬ ix.AffordsAll ops := fun hmeans => by
    obtain ⟨answers, ix', hrun⟩ := (h.exists_run_iff hops).2 hmeans
    rw [hrun] at hstops
    cases hstops
  obtain ⟨f', hstops', hf⟩ := h.run_stops hops hmeans
  rw [hstops] at hstops'
  cases hstops'
  exact hf

/-- What a run leaves is laid out. -/
theorem of_run [LevelSource G] (h : ix.Layout ns) {ops : List (Operation V)}
    (hops : ∀ op ∈ ops, op.Unlinked) {answers : List (Answer V)}
    (hrun : ix.run ops = .ok (answers, ix')) : ∃ ns', ix'.Layout ns' := by
  have hmeans := (h.exists_run_iff hops).1 ⟨answers, ix', hrun⟩
  obtain ⟨answers', ix₁, ns', hrun', -, h'⟩ := h.exists_run hops hmeans
  rw [hrun] at hrun'
  cases hrun'
  exact ⟨ns', h'⟩

/-- What an enrolment leaves is laid out. -/
theorem of_enroll [LevelSource G] (h : ix.Layout ns) {e : Entry V} (he : e.isLinked = false)
    {result : Except (EnrollError V) Cookie} (henroll : ix.enroll e = .ok (result, ix')) :
    ∃ ns', ix'.Layout ns' := by
  by_cases hmeans : ix.Affords (.enroll e)
  · obtain ⟨result', ix₁, ns', henroll', h'⟩ := h.exists_enroll he hmeans
    rw [henroll] at henroll'
    cases henroll'
    exact ⟨ns', h'⟩
  · have hstops := h.enroll_stops he hmeans
    rw [henroll] at hstops
    cases hstops

end Layout

/-- Every index that is made is well-formed. Whatever heights are drawn, every operation on a
well-formed index that gives an answer leaves a well-formed index, and so does every run; and all of
them give an answer that the index affords. -/
theorem wellFormed_preserved [LevelSource G] :
    (∀ config entropy, (∃ ix : Index G V, create config entropy = .ok ix) ↔ config.Fits) ∧
      (∀ config entropy (ix : Index G V), create config entropy = .ok ix → ix.WellFormed) ∧
      ∀ ix : Index G V, ix.WellFormed →
        (∀ e : Entry V, e.isLinked = false →
          (∀ result ix', ix.enroll e = .ok (result, ix') → ix'.WellFormed) ∧
          (ix.Affords (.enroll e) → ∃ result ix', ix.enroll e = .ok (result, ix'))) ∧
        (∀ c, ∃ e ix', ix.remove c = .ok (e, ix') ∧ ix'.WellFormed) ∧
        (∃ es ix', ix.drain = .ok (es, ix') ∧ ix'.WellFormed) ∧
        (∀ c v, (ix.setValue c v).2.WellFormed) ∧
        ∀ ops : List (Operation V), (∀ op ∈ ops, op.Unlinked) →
          (∀ answers ix', ix.run ops = .ok (answers, ix') → ix'.WellFormed) ∧
          (ix.AffordsAll ops → ∃ answers ix', ix.run ops = .ok (answers, ix')) := by
  refine ⟨fun config entropy => exists_create_iff, fun config entropy ix hcreate =>
    (new_of_create hcreate).layout.wellFormed, fun ix hix => ?_⟩
  obtain ⟨ns, h⟩ := wellFormed_iff_exists_layout.1 hix
  refine ⟨fun e he => ⟨fun result ix' henroll => ?_, fun hmeans => ?_⟩, fun c => ?_, ?_,
    fun c v => ?_, fun ops hops => ⟨fun answers ix' hrun => ?_, (h.exists_run_iff hops).2⟩⟩
  · obtain ⟨ns', h'⟩ := h.of_enroll he henroll
    exact h'.wellFormed
  · obtain ⟨result, ix', ns', henroll, -⟩ := h.exists_enroll he hmeans
    exact ⟨result, ix', henroll⟩
  · obtain ⟨e, ix', ns', hremove, h'⟩ := h.exists_remove c
    exact ⟨e, ix', hremove, h'.wellFormed⟩
  · obtain ⟨ix', hdrain, h', -⟩ := h.drain_eq
    exact ⟨_, ix', hdrain, h'.wellFormed⟩
  · obtain ⟨ns', h'⟩ := h.exists_setValue c v
    exact h'.wellFormed
  · obtain ⟨ns', h'⟩ := h.of_run hops hrun
    exact h'.wellFormed

/-- A second entry is enrolled in the index of one. -/
theorem wellFormed_preserved_lone :
    (lone (ChaCha.ofSeed 0)).check = .ok 1 ∧ ∃ result ix',
      (lone (ChaCha.ofSeed 0)).enroll { name := [98], value := 8 } = .ok (result, ix') ∧
        ix'.WellFormed := by
  have hcheck : (lone (ChaCha.ofSeed 0)).check = .ok 1 := by rfl
  obtain ⟨ns, h⟩ := exists_layout_of_check ⟨1, rfl⟩ hcheck
  obtain ⟨-, -, hkept⟩ := wellFormed_preserved (G := ChaCha) (V := Nat)
  obtain ⟨henrolls, -⟩ := hkept _ h.wellFormed
  obtain ⟨hleaves, hanswers⟩ := henrolls { name := [98], value := 8 } rfl
  obtain ⟨result, ix', henroll⟩ := hanswers (.inr ⟨by decide, 2, by decide⟩)
  exact ⟨hcheck, result, ix', henroll, hleaves _ _ henroll⟩

/-- A well-formed index that has passed every cookie is left in no state by the enrolment of a new
name. -/
theorem wellFormed_enroll_spent :
    (spent (ChaCha.ofSeed 1)).WellFormed ∧
      ¬ ∃ result ix', (spent (ChaCha.ofSeed 1)).enroll { name := [98], value := 8 } =
        .ok (result, ix') ∧ ix'.WellFormed := by
  have hcheck : (spent (ChaCha.ofSeed 1)).check = .ok 1 := by rfl
  have hstops : (spent (ChaCha.ofSeed 1)).enroll { name := [98], value := 8 } =
      .error .cookiesSpent := by decide +kernel
  obtain ⟨ns, h⟩ := exists_layout_of_check ⟨1, rfl⟩ hcheck
  refine ⟨h.wellFormed, ?_⟩
  rintro ⟨result, ix', henroll, -⟩
  rw [hstops] at henroll
  cases henroll

/-- An index that passes its check answers every operation of every run that it affords. No run
stops for another reason than that no cookie is left, or no room for the table. -/
theorem run_of_check [LevelSource G] {ix : Index G V} (hcap : ix.capacity.isPowerOfTwo) {n : Nat}
    (hcheck : ix.check = .ok n) {ops : List (Operation V)} (hops : ∀ op ∈ ops, op.Unlinked) :
    (ix.AffordsAll ops →
        ∃ answers ix', ix.run ops = .ok (answers, ix') ∧ answers.length = ops.length) ∧
      ∀ f, ix.run ops = .error f → ¬ ix.AffordsAll ops ∧ f.IsShortage := by
  obtain ⟨ns, h⟩ := exists_layout_of_check hcap hcheck
  refine ⟨fun hmeans => ?_, fun f hstops => ?_⟩
  · obtain ⟨answers, ix', ns', hrun, hlen, -⟩ := h.exists_run hops hmeans
    exact ⟨answers, ix', hrun, hlen⟩
  · refine ⟨fun hmeans => ?_, h.isShortage_of_run hops hstops⟩
    obtain ⟨answers, ix', hrun⟩ := (h.exists_run_iff hops).2 hmeans
    rw [hrun] at hstops
    cases hstops

/-- An entry joins the one that the index holds and leaves again, and what is left is drained. -/
theorem run_of_check_lone :
    (lone (ChaCha.ofSeed 0)).check = .ok 1 ∧ ∃ answers ix', (lone (ChaCha.ofSeed 0)).run
      [.enroll { name := [98], value := 8 }, .floor [99], .remove ⟨2⟩, .list none .back, .drain] =
        .ok (answers, ix') ∧ answers.length = 5 := by
  have hcheck : (lone (ChaCha.ofSeed 0)).check = .ok 1 := by rfl
  have hops : ∀ op ∈ [Operation.enroll { name := [98], value := 8 }, .floor [99], .remove ⟨2⟩,
      .list none .back, .drain], Operation.Unlinked (V := Nat) op := by
    intro op hop
    simp only [List.mem_cons, List.not_mem_nil, or_false] at hop
    rcases hop with rfl | rfl | rfl | rfl | rfl
    · exact rfl
    all_goals trivial
  have hcap : (lone (ChaCha.ofSeed 0)).capacity.isPowerOfTwo := ⟨1, rfl⟩
  obtain ⟨hanswers, -⟩ := run_of_check hcap hcheck hops
  refine ⟨hcheck, hanswers ⟨.inr ⟨by decide, 2, by decide⟩, fun _ _ _ => ?_⟩⟩
  exact ⟨trivial, fun _ _ _ => ⟨trivial, fun _ _ _ => ⟨trivial, fun _ _ _ => ⟨trivial,
    fun _ _ _ => trivial⟩⟩⟩⟩

end Index

end NameIndex
