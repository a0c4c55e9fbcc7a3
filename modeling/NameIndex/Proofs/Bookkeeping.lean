import NameIndex.Proofs.Ledger
import NameIndex.Proofs.Simulation

/-!
# An index keeps a ledger

Every operation that an index affords, if its bindings are those of a ledger, gets the answer of the
ledger and leaves an index with the bindings of the ledger after it (`Keeps.exists_apply`), whatever
heights are drawn. A run therefore answers as the run of the ledger does (`Keeps.exists_run`). An
index affords every run that is not too long for the cookies that are left
(`Keeps.affordsAll_of_goodFor`). As ledgers know nothing of levels, neither does any answer: two new
indexes of the same sizes, with levels drawn from different sources, answer every run in the same
way, or stop at the same fault.
-/

namespace NameIndex

variable {G V : Type}

/-- The index holds the bindings of a ledger in as many slots. -/
structure Index.Keeps (ix : Index G V) (ns : List (Node V)) (l : Ledger V) : Prop
    extends ix.Represents ns l.toDirectory where
  /-- The table has the slots of the ledger. -/
  slots : l.slots = ix.capacity

/-- There is room for the table at its greatest size, and there are cookies for `n` operations, even
if each of them were to pass as many as there may be slots. -/
structure Index.GoodFor (ix : Index G V) (n : Nat) : Prop where
  /-- The table may have its greatest size. -/
  room : ix.maxCapacity < entryLimit
  /-- The last cookie that could be passed fits in a word. -/
  words : ix.lastCookie + n * (ix.maxCapacity + 1) < wordLimit

theorem Index.GoodFor.mono {ix : Index G V} {m n : Nat} (h : ix.GoodFor n) (hle : m ≤ n) :
    ix.GoodFor m :=
  ⟨h.room, Nat.lt_of_le_of_lt
    (Nat.add_le_add_left (Nat.mul_le_mul_right _ hle) _) h.words⟩

namespace Index.Keeps

variable {ix : Index G V} {pre post ns : List (Node V)} {l : Ledger V} {name : Name}

/-! ## Reading -/

/-- The records of the entries in name order are the bindings. -/
theorem map_record (h : ix.Keeps ns l) : (weave [] .null ns).map Entry.record = l.records := by
  rw [map_record_weave, h.records]

/-- The bindings not before a name are the records of the entries there. -/
theorem notBefore_eq (h : ix.Keeps ns l) (name : Name) :
    l.notBefore name =
      ((weave [] .null ns).filter fun e => ¬ e.name < name).map Entry.record := by
  rw [Ledger.notBefore, ← h.map_record, List.filter_map]
  rfl

/-- The bindings not after a name are the records of the entries there. -/
theorem notAfter_eq (h : ix.Keeps ns l) (name : Name) :
    l.notAfter name =
      ((weave [] .null ns).filter fun e => ¬ name < e.name).map Entry.record := by
  rw [Ledger.notAfter, ← h.map_record, List.filter_map]
  rfl

theorem exists_next (h : ix.Keeps ns l) (c : Cookie) :
    ∃ e, ix.next c = .ok e ∧ e.map Entry.record = Ledger.following c l.records := by
  rcases node_cases (fun n => n.cookie = c) ns with hnone | ⟨pre, n, post, rfl, rfl⟩
  · refine ⟨none, h.layout.next_none hnone, ?_⟩
    rw [h.records, Ledger.following_none (List.forall_mem_map.2 hnone)]
    rfl
  · have hpre : ∀ r ∈ pre.map Node.toRecord, r.cookie ≠ n.cookie :=
      List.forall_mem_map.2 fun m hm => h.layout.cookie_ne m (List.mem_append_left _ hm)
    have hfollowing := Ledger.following_append hpre (post.map Node.toRecord)
    refine ⟨_, h.layout.next_eq, ?_⟩
    rw [← List.head?_map, map_record_weave, h.records, List.map_append, List.map_cons]
    exact hfollowing.symm

theorem exists_prev (h : ix.Keeps ns l) (c : Cookie) :
    ∃ e, ix.prev c = .ok e ∧ e.map Entry.record = Ledger.following c l.records.reverse := by
  rcases node_cases (fun n => n.cookie = c) ns with hnone | ⟨pre, n, post, rfl, rfl⟩
  · refine ⟨none, h.layout.prev_none hnone, ?_⟩
    rw [h.records, ← List.map_reverse, Ledger.following_none]
    · rfl
    · exact List.forall_mem_map.2 fun m hm => hnone m (List.mem_reverse.1 hm)
  · have hpost : ∀ r ∈ (post.map Node.toRecord).reverse, r.cookie ≠ n.cookie := by
      rw [← List.map_reverse]
      exact List.forall_mem_map.2 fun m hm =>
        h.layout.cookie_ne m (List.mem_append_right _ (List.mem_reverse.1 hm))
    have hfollowing := Ledger.following_append hpost (pre.map Node.toRecord).reverse
    refine ⟨_, h.layout.prev_eq, ?_⟩
    rw [← List.getLast?_map, map_record_weave, h.records, List.map_append, List.map_cons,
      List.reverse_append, List.reverse_cons, List.append_assoc, List.singleton_append,
      ← List.head?_reverse]
    exact hfollowing.symm

theorem exists_seek (h : ix.Keeps ns l) (name : Name) :
    ∃ e, ix.seek name = .ok e ∧ e.map Entry.record = (l.notBefore name).head? := by
  refine ⟨_, h.layout.seek_scan name, ?_⟩
  rw [h.notBefore_eq, List.head?_map]

theorem exists_floor (h : ix.Keeps ns l) (name : Name) :
    ∃ e, ix.floor name = .ok e ∧ e.map Entry.record = (l.notAfter name).getLast? := by
  refine ⟨_, h.layout.floor_scan name, ?_⟩
  rw [h.notAfter_eq, List.getLast?_map]

/-- The bindings from a name on are the records of the entries from there on. -/
theorem since_eq (h : ix.Keeps ns l) (start : Option Name) :
    l.since start = (ix.inOrderFrom start).map Entry.record := by
  cases start with
  | none =>
    rw [Ledger.since, inOrderFrom, h.layout.inOrder_eq, h.map_record]
  | some name =>
    rw [Ledger.since, inOrderFrom, h.layout.inOrder_eq, h.notBefore_eq]

/-- A cursor starts at the nodes of the bindings that are asked for. -/
theorem exists_cursorAt (h : ix.Keeps ns l) (start : Option Name) :
    ∃ pre post, ns = pre ++ post ∧ ix.cursorAt start = .ok (.over post) ∧
      l.since start = post.map Node.toRecord := by
  obtain ⟨pre, post, hns, hcursor, hentries⟩ := h.layout.exists_cursorAt start
  refine ⟨pre, post, hns, hcursor, ?_⟩
  rw [h.since_eq, hentries, map_record_weave]

/-- A reading gets the answer of the ledger and leaves both as they are. -/
theorem exists_read (h : ix.Keeps ns l) {answer : Except Fault (Answer V)} {a : Answer V}
    (ha : answer = .ok a) :
    ∃ ix' ns', ix.read answer = .ok (a, ix') ∧ ix'.Keeps ns' l := by
  rw [ha]
  exact ⟨ix, ns, rfl, h⟩

theorem exists_readEntry (h : ix.Keeps ns l) {entry : Except Fault (Option (Entry V))}
    {r : Option (Record V)} (hentry : ∃ e, entry = .ok e ∧ e.map Entry.record = r) :
    ∃ ix' ns', ix.readEntry entry = .ok (.record r, ix') ∧ ix'.Keeps ns' l := by
  obtain ⟨e, rfl, rfl⟩ := hentry
  exact h.exists_read rfl

/-! ## Changing -/

/-- An index and its ledger ask for more slots at the same time. -/
theorem grownSlots_eq (h : ix.Keeps ns l) : l.grownSlots = ix.grownCapacity := by
  rw [Ledger.grownSlots, grownCapacity, h.slots, h.limit, h.count_eq]

theorem exists_enroll [LevelSource G] (h : ix.Keeps ns l) {e : Entry V} (he : e.isLinked = false)
    (hmeans : ix.Affords (.enroll e)) :
    ∃ ix' ns', ix.apply (.enroll e) = .ok ((l.enroll e).1, ix') ∧ ix'.Keeps ns' (l.enroll e).2 := by
  have hnamed := h.named_eq e.name
  have hgrown := h.grownSlots_eq
  have hcount := h.count_eq
  rw [Ledger.enroll]
  split_ifs with hname hfull
  · rw [apply, h.layout.enroll_duplicate he (hnamed.trans hname)]
    exact ⟨_, ns, rfl, { h with layout := h.layout.withSource _ }⟩
  · have hfull' : ix.grownCapacity ≤ ix.count := by omega
    rw [Bool.not_eq_true] at hname
    have hnamed := hnamed.trans hname
    have hmeans := h.layout.hasMeans_of_affords hnamed hmeans
    have hspent : (⟨l.last + 1⟩ : Cookie).val = ix.lastCookie + 1 := congrArg (· + 1) h.last
    rw [apply, h.layout.enroll_full he hnamed hmeans hfull', CookieTable.slotOf]
    refine ⟨_, ns, ?_, h.spend (LevelSource.drawHeight ix.source).2 hspent (Nat.lt_succ_self _),
      h.slots⟩
    dsimp only
    rw [h.last, h.slots]
    rfl
  · have hroom : ix.count < ix.grownCapacity := by omega
    rw [Bool.not_eq_true] at hname
    have hnamed := hnamed.trans hname
    have hmeans := h.layout.hasMeans_of_affords hnamed hmeans
    obtain ⟨c, ix', ns', hfresh, henroll, h', hcap, hfirst⟩ :=
      h.enroll_fresh he hnamed hmeans hroom
    rw [← hgrown] at hfirst
    obtain rfl : l.grown.nextCookie = c := Ledger.nextCookie_eq hfirst
    rw [apply, henroll]
    exact ⟨ix', ns', rfl, h', hgrown.trans hcap.symm⟩

/-- Every operation that the index affords gets the answer of the ledger, and the index after it
keeps the ledger after it. -/
theorem exists_apply [LevelSource G] (h : ix.Keeps ns l) {op : Operation V} (hop : op.Unlinked)
    (hmeans : ix.Affords op) :
    ∃ ix' ns', ix.apply op = .ok ((l.apply op).1, ix') ∧ ix'.Keeps ns' (l.apply op).2 := by
  cases op with
  | enroll e => exact h.exists_enroll hop hmeans
  | remove c =>
    obtain ⟨ix', ns', hremove, h', hcap⟩ := h.exists_remove c
    refine ⟨ix', ns', ?_, h', h.slots.trans hcap.symm⟩
    rw [apply, hremove]
    rfl
  | drain =>
    obtain ⟨ix', hdrain, h', hcap⟩ := h.exists_drain
    refine ⟨ix', [], ?_, h', h.slots.trans hcap.symm⟩
    rw [apply, hdrain]
    rfl
  | set c v =>
    obtain ⟨ix', ns', hset, h', hcap⟩ := h.exists_setValue c v
    refine ⟨ix', ns', ?_, h', h.slots.trans hcap.symm⟩
    rw [apply, hset]
    rfl
  | get c => exact h.exists_readEntry ⟨_, rfl, h.get?_eq c⟩
  | contains c =>
    refine h.exists_read ?_
    rw [Ledger.apply, contains, ← h.get?_eq c, Option.isSome_map]
  | first =>
    refine h.exists_readEntry ⟨_, h.layout.first_eq, ?_⟩
    rw [← List.head?_map, h.map_record]
  | last =>
    refine h.exists_readEntry ⟨_, h.layout.last_eq, ?_⟩
    rw [← List.getLast?_map, h.map_record]
  | next c => exact h.exists_readEntry (h.exists_next c)
  | prev c => exact h.exists_readEntry (h.exists_prev c)
  | lookup name => exact h.exists_readEntry (h.lookup_eq name)
  | seek name => exact h.exists_readEntry (h.exists_seek name)
  | floor name => exact h.exists_readEntry (h.exists_floor name)
  | list start side =>
    obtain ⟨pre, post, rfl, hcursor, hsince⟩ := h.exists_cursorAt start
    refine h.exists_read ?_
    rw [Ledger.apply, hcursor, ok_bind, h.layout.popAll_eq side, ok_bind, hsince,
      ← map_record_weave [] (lastOf .null pre) post, Side.order_map]
    rfl
  | pop start sides =>
    obtain ⟨pre, post, rfl, hcursor, hsince⟩ := h.exists_cursorAt start
    have hlayout : ix.Layout (pre ++ post ++ []) := by
      rw [List.append_nil]
      exact h.layout
    refine h.exists_read ?_
    rw [Ledger.apply, hcursor, ok_bind, hlayout.popEach_eq sides, ok_bind, hsince,
      ← map_record_weave [] (lastOf .null pre) post, Side.take_map]
    rfl
  | startingWith stem =>
    obtain ⟨pre, post, rfl, hpre, hpost⟩ := exists_split_at h.layout.sorted stem
    refine h.exists_read ?_
    rw [Ledger.apply, h.layout.startingWith_eq hpre hpost, ok_bind, h.notBefore_eq,
      Threaded.filter_not_before hpre hpost, List.takeWhile_map]
    rfl
  | check =>
    refine h.exists_read ?_
    rw [h.layout.check_eq, h.count_eq]
    rfl
  | length => exact h.exists_read (congrArg (Except.ok ∘ Answer.number) h.count_eq)
  | isEmpty => exact h.exists_read (congrArg (Except.ok ∘ Answer.truth) h.isEmpty_eq)
  | capacity => exact h.exists_read (congrArg (Except.ok ∘ Answer.number) h.slots.symm)

/-- A run that the index affords gets the answers of the ledger's run. -/
theorem exists_run [LevelSource G] (h : ix.Keeps ns l) {ops : List (Operation V)}
    (hops : ∀ op ∈ ops, op.Unlinked) (hmeans : ix.AffordsAll ops) :
    ∃ ix' ns', ix.run ops = .ok ((l.run ops).1, ix') ∧ ix'.Keeps ns' (l.run ops).2 := by
  -- By induction on the operations, from whatever index and ledger the ones before have left.
  induction ops generalizing ix ns l with
  | nil => exact ⟨ix, ns, rfl, h⟩
  | cons op ops ih =>
    rw [List.forall_mem_cons] at hops
    obtain ⟨ix₁, ns₁, happly, h₁⟩ := h.exists_apply hops.1 hmeans.1
    obtain ⟨ix₂, ns₂, hrun, h₂⟩ := ih h₁ hops.2 (hmeans.2 _ _ happly)
    refine ⟨ix₂, ns₂, ?_, h₂⟩
    rw [run, happly, ok_bind]
    dsimp only
    rw [hrun]
    rfl

/-! ## Means -/

/-- The cookies of the entries are those of the bindings. -/
theorem cookies_perm (h : ix.Keeps ns l) :
    (ix.table.live.map Entry.cookie).Perm (l.records.map Record.cookie) := by
  rw [h.records, List.map_map]
  exact h.layout.cookies_perm

/-- An index that keeps the same ledger as another has the same means for a new name. -/
theorem hasMeans {G' : Type} {ix' : Index G' V} {ns' : List (Node V)} (h : ix.Keeps ns l)
    (h' : ix'.Keeps ns' l) (hmeans : ix.HasMeans) : ix'.HasMeans := by
  have hgrown : ix'.grownCapacity = ix.grownCapacity := h'.grownSlots_eq.symm.trans h.grownSlots_eq
  have hcount : ix'.count = ix.count := h'.count_eq.trans h.count_eq.symm
  have hlast : ix'.lastCookie = ix.lastCookie := h'.last.symm.trans h.last
  have hcookies := h'.cookies_perm.trans h.cookies_perm.symm
  obtain ⟨k, hafter, hword, hfree⟩ := hmeans.cookie
  refine ⟨?_, k, ?_, hword, fun hroom e he => ?_⟩
  · rw [hgrown]
    exact hmeans.table
  · rwa [hlast]
  · rw [hcount, hgrown] at hroom
    obtain ⟨e', he', hcookie⟩ := List.mem_map.1 (hcookies.mem_iff.1 (List.mem_map_of_mem he))
    rw [hgrown, ← hcookie]
    exact hfree hroom e' he'

/-- So it affords the same operations. -/
theorem affords {G' : Type} {ix' : Index G' V} {ns' : List (Node V)} (h : ix.Keeps ns l)
    (h' : ix'.Keeps ns' l) {op : Operation V} (hmeans : ix.Affords op) : ix'.Affords op := by
  cases op with
  | enroll e =>
    refine hmeans.imp (fun hname => ?_) (h.hasMeans h')
    rw [h.layout.hasName_iff, h.named_eq] at hname
    rw [h'.layout.hasName_iff, h'.named_eq]
    exact hname
  | _ => exact trivial

/-- The answers of a run are that of its first operation and those of the rest. -/
theorem map_fst_run_cons [LevelSource G] {ix' : Index G V} {op : Operation V} {answer : Answer V}
    (happly : ix.apply op = .ok (answer, ix')) (ops : List (Operation V)) :
    (ix.run (op :: ops)).map Prod.fst = ((ix'.run ops).map Prod.fst).map (answer :: ·) := by
  rw [run, happly, ok_bind]
  dsimp only
  cases ix'.run ops <;> rfl

/-- Two indexes that keep one ledger answer a run in the same way, or both stop at the same
shortage. -/
theorem run_answers_eq {G' : Type} {ix' : Index G' V} {ns' : List (Node V)} [LevelSource G]
    [LevelSource G'] (h : ix.Keeps ns l) (h' : ix'.Keeps ns' l) {ops : List (Operation V)}
    (hops : ∀ op ∈ ops, op.Unlinked) : (ix.run ops).map Prod.fst = (ix'.run ops).map Prod.fst := by
  induction ops generalizing ix ns ix' ns' l with
  | nil => rfl
  | cons op ops ih =>
    rw [List.forall_mem_cons] at hops
    by_cases hmeans : ix.Affords op
    · obtain ⟨ix₁, ns₁, happly, h₁⟩ := h.exists_apply hops.1 hmeans
      obtain ⟨ix₁', ns₁', happly', h₁'⟩ := h'.exists_apply hops.1 (h.affords h' hmeans)
      rw [map_fst_run_cons happly, map_fst_run_cons happly', ih h₁ h₁' hops.2]
    · have hgrown : ix'.grownCapacity = ix.grownCapacity :=
        h'.grownSlots_eq.symm.trans h.grownSlots_eq
      have hshort : ix'.shortage = ix.shortage := by rw [shortage, shortage, hgrown]
      rw [run, run, h.layout.apply_eq_error hops.1 hmeans,
        h'.layout.apply_eq_error hops.1 fun hmeans' => hmeans (h'.affords h hmeans'), hshort]
      rfl

/-- An index that is good for one operation more affords the next one. -/
theorem affords_of_goodFor (h : ix.Keeps ns l) {n : Nat} (hgood : ix.GoodFor (n + 1))
    (op : Operation V) : ix.Affords op := by
  have hgrown := h.grownCapacity_le
  obtain ⟨hroom, hwords⟩ := hgood
  rw [Nat.succ_mul] at hwords
  cases op with
  | enroll e => exact .inr (h.layout.hasMeans_of_lt (by omega) (by omega))
  | _ => exact trivial

/-- After that operation it is good for the others. -/
theorem goodFor_of_apply [LevelSource G] (h : ix.Keeps ns l) {ix' : Index G V} {n : Nat}
    (hgood : ix.GoodFor (n + 1)) {op : Operation V} (hop : op.Unlinked) {answer : Answer V}
    (happly : ix.apply op = .ok (answer, ix')) : ix'.GoodFor n := by
  obtain ⟨ix₁, ns₁, happly₁, h₁⟩ := h.exists_apply hop (h.affords_of_goodFor hgood op)
  rw [happly] at happly₁
  cases happly₁
  have hgrown := h.grownCapacity_le
  have hlast : ix'.lastCookie ≤ ix.lastCookie + ix.grownCapacity + 1 := by
    rw [← h₁.last, ← h.last, ← h.grownSlots_eq]
    exact l.last_apply_le op
  have hmax : ix'.maxCapacity = ix.maxCapacity := by
    rw [← h₁.limit, ← h.limit]
    exact l.limit_apply op
  obtain ⟨hroom, hwords⟩ := hgood
  rw [Nat.succ_mul] at hwords
  constructor
  · rwa [hmax]
  · rw [hmax]
    omega

/-- An index affords every run of as many operations as it is good for. -/
theorem affordsAll_of_goodFor [LevelSource G] (h : ix.Keeps ns l) {ops : List (Operation V)}
    (hops : ∀ op ∈ ops, op.Unlinked) (hgood : ix.GoodFor ops.length) : ix.AffordsAll ops := by
  induction ops generalizing ix ns l with
  | nil => trivial
  | cons op ops ih =>
    rw [List.forall_mem_cons] at hops
    have hmeans := h.affords_of_goodFor hgood op
    refine ⟨hmeans, fun answer ix' happly => ?_⟩
    obtain ⟨ix₁, ns₁, happly₁, h₁⟩ := h.exists_apply hops.1 hmeans
    rw [happly] at happly₁
    cases happly₁
    exact ih h₁ hops.2 (h.goodFor_of_apply hgood hops.1 happly)

end Index.Keeps

namespace Index

variable {ix : Index G V} {config : Config} {entropy : UInt64} {ops : List (Operation V)}

/-- A new index keeps the ledger without bindings. -/
theorem New.keeps [LevelSource G] (h : ix.New config entropy) :
    ix.Keeps [] (.empty config.firstSlots config.mostSlots) where
  toRepresents := h.represents
  slots := h.capacity.symm

/-- How many operations a new index is good for can be told from its greatest size. -/
theorem New.goodFor [LevelSource G] (h : ix.New config entropy) {n : Nat}
    (hroom : config.mostSlots < entryLimit) (hwords : n * (config.mostSlots + 1) < wordLimit) :
    ix.GoodFor n := by
  constructor
  · rwa [h.maxCapacity]
  · rwa [h.lastCookie, h.maxCapacity, Nat.zero_add]

/-- Two new indexes of the same sizes answer every run in the same way, whatever the sources of
their level draws and the seeds, and count as many entries and slots after it. If the one does not
afford the run, both stop at the same fault. -/
theorem run_answers_eq_of_seeds {G₁ G₂ : Type} [LevelSource G₁] [LevelSource G₂] (config : Config)
    {seed₁ seed₂ : Option UInt64} {entropy₁ entropy₂ : UInt64} {ix₁ : Index G₁ V} {ix₂ : Index G₂ V}
    (hcreate₁ : create { config with seed := seed₁ } entropy₁ = .ok ix₁)
    (hcreate₂ : create { config with seed := seed₂ } entropy₂ = .ok ix₂)
    (hops : ∀ op ∈ ops, op.Unlinked) :
    (ix₁.AffordsAll ops → ∃ answers ix₁' ix₂', ix₁.run ops = .ok (answers, ix₁') ∧
        ix₂.run ops = .ok (answers, ix₂') ∧ answers.length = ops.length ∧
        ix₁'.count = ix₂'.count ∧ ix₁'.capacity = ix₂'.capacity) ∧
      (¬ ix₁.AffordsAll ops → ∃ f, ix₁.run ops = .error f ∧ ix₂.run ops = .error f) := by
  have h₁ : ix₁.Keeps [] (.empty config.firstSlots config.mostSlots) :=
    (new_of_create hcreate₁).keeps
  have h₂ : ix₂.Keeps [] (.empty config.firstSlots config.mostSlots) :=
    (new_of_create hcreate₂).keeps
  have hanswers := h₁.run_answers_eq h₂ hops
  refine ⟨fun hmeans => ?_, fun hmeans => ?_⟩
  · obtain ⟨ix₁', ns₁', hrun₁, h₁'⟩ := h₁.exists_run hops hmeans
    rw [hrun₁] at hanswers
    obtain ⟨⟨answers, ix⟩, hrun, -⟩ := map_eq_ok_iff.1 hanswers.symm
    have hmeans₂ := (h₂.layout.exists_run_iff hops).1 ⟨answers, ix, hrun⟩
    obtain ⟨ix₂', ns₂', hrun₂, h₂'⟩ := h₂.exists_run hops hmeans₂
    exact ⟨_, ix₁', ix₂', hrun₁, hrun₂, Ledger.length_run _ ops,
      h₁'.count_eq.trans h₂'.count_eq.symm, h₁'.slots.symm.trans h₂'.slots⟩
  · obtain ⟨f, hrun₁, -⟩ := h₁.layout.run_stops hops hmeans
    rw [hrun₁] at hanswers
    exact ⟨f, hrun₁, map_eq_error_iff.1 hanswers.symm⟩

/-- The table grows from one slot to two, and is full when the last entry comes. -/
theorem run_answers_eq_of_seeds_full :
    ∃ ix₁ ix₂ : Index ChaCha Nat, create ⟨1, 2, some 0⟩ 0 = .ok ix₁ ∧
      create ⟨1, 2, some 1⟩ 0 = .ok ix₂ ∧ ∃ answers ix₁' ix₂',
        ix₁.run [.enroll ⟨[98], 7, .null, [], .null⟩, .enroll ⟨[97], 8, .null, [], .null⟩,
          .enroll ⟨[99], 9, .null, [], .null⟩, .list none .front, .drain] = .ok (answers, ix₁') ∧
        ix₂.run [.enroll ⟨[98], 7, .null, [], .null⟩, .enroll ⟨[97], 8, .null, [], .null⟩,
          .enroll ⟨[99], 9, .null, [], .null⟩, .list none .front, .drain] = .ok (answers, ix₂') ∧
        answers.length = 5 ∧ ix₁'.count = ix₂'.count ∧ ix₁'.capacity = ix₂'.capacity := by
  have hfits₁ : Config.Fits ⟨1, 2, some 0⟩ := ⟨by decide, by decide, by decide⟩
  have hfits₂ : Config.Fits ⟨1, 2, some 1⟩ := ⟨by decide, by decide, by decide⟩
  obtain ⟨ix₁, hcreate₁, hnew₁⟩ := exists_create (G := ChaCha) (V := Nat) hfits₁ 0
  obtain ⟨ix₂, hcreate₂, -⟩ := exists_create (G := ChaCha) (V := Nat) hfits₂ 0
  have hops : ∀ op ∈ [Operation.enroll ⟨[98], 7, .null, [], .null⟩,
      .enroll ⟨[97], 8, .null, [], .null⟩, .enroll ⟨[99], 9, .null, [], .null⟩, .list none .front,
      .drain], Operation.Unlinked (V := Nat) op := by
    intro op hop
    simp only [List.mem_cons, List.not_mem_nil, or_false] at hop
    rcases hop with rfl | rfl | rfl | rfl | rfl
    · exact rfl
    · exact rfl
    · exact rfl
    all_goals trivial
  have hmeans := hnew₁.keeps.affordsAll_of_goodFor hops (hnew₁.goodFor (by decide) (by decide))
  obtain ⟨hanswers, -⟩ := run_answers_eq_of_seeds ⟨1, 2, none⟩ hcreate₁ hcreate₂ hops
  exact ⟨ix₁, ix₂, hcreate₁, hcreate₂, hanswers hmeans⟩

end Index

end NameIndex
