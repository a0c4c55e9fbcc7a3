import NameIndex.Index.Bulk
import NameIndex.Proofs.Directory
import NameIndex.Proofs.Run

/-!
# An index is a directory

`Represents` relates an index to the directory of its nodes. A request that the index can serve gets
an answer that the directory may give, and the index then represents the directory after it
(`Represents.exists_serve`). So a run of requests on a new index is followed by a directory that
starts without bindings, request by request (`Represents.follows`), up to a new name for which no
cookie is left, or no room for the table.
-/

namespace NameIndex

variable {G V : Type}

/-- Whether a request hands over no entry, or one that the caller owns. -/
def Request.Unlinked : Request V → Prop
  | .enroll e => e.isLinked = false
  | _ => True

/-- Whether the index can serve a request. Only a new name asks for anything. -/
def Index.CanServe (ix : Index G V) : Request V → Prop
  | .enroll e => ix.Affords (.enroll e)
  | _ => True

/-- Serves a request from an index. -/
def Index.serve [LevelSource G] (ix : Index G V) :
    Request V → Except Fault (Answer V × Index G V)
  | .enroll e => ix.apply (.enroll e)
  | .remove c => ix.apply (.remove c)
  | .removeName name => do
    let (e, ix) ← ix.removeName name
    return (.owned e, ix)
  | .get c => ix.apply (.get c)
  | .contains c => ix.apply (.contains c)
  | .set c v => ix.apply (.set c v)
  | .length => ix.apply .length
  | .isEmpty => ix.apply .isEmpty
  | .lookup name => ix.apply (.lookup name)
  | .drain => ix.apply .drain

/-- Every request in turn that the index can serve is answered as the directory may, and leaves the
entries in name order that the directory has then. The first that it cannot serve stops the run, at
what the index is short of. -/
def Index.Follows [LevelSource G] : Index G V → Directory V → List (Request V) → Prop
  | _, _, [] => True
  | ix, d, request :: requests =>
      (ix.CanServe request → ∃ answer ix' d', ix.serve request = .ok (answer, ix') ∧
        d.Step request answer d' ∧
        (ix'.entries.map fun es => es.map Entry.record) = .ok d'.records ∧
        ix'.Follows d' requests) ∧
      (¬ ix.CanServe request → ix.serve request = .error ix.shortage)

/-! ## The records of nodes -/

section Records

variable {pre post ns : List (Node V)} {n : Node V} {p : Record V → Bool}

/-- The only node that has a property. -/
theorem find?_records (hothers : ∀ m ∈ pre ++ post, p m.toRecord = false)
    (hn : p n.toRecord = true) :
    ((pre ++ n :: post).map Node.toRecord).find? p = some n.toRecord := by
  have hnone : (pre.map Node.toRecord).find? p = none := by
    rw [List.find?_eq_none, List.forall_mem_map]
    intro m hm
    rw [hothers m (List.mem_append_left _ hm)]
    decide
  rw [List.map_append, List.map_cons, List.find?_append, hnone, List.find?_cons_of_pos hn]
  rfl

theorem find?_records_none (h : ∀ m ∈ ns, p m.toRecord = false) :
    (ns.map Node.toRecord).find? p = none := by
  rw [List.find?_eq_none, List.forall_mem_map]
  intro m hm
  rw [h m hm]
  decide

/-- All nodes but one are kept. -/
theorem filter_records (hothers : ∀ m ∈ pre ++ post, p m.toRecord = true)
    (hn : p n.toRecord = false) :
    ((pre ++ n :: post).map Node.toRecord).filter p = (pre ++ post).map Node.toRecord := by
  have hkept : ((pre ++ post).map Node.toRecord).filter p = (pre ++ post).map Node.toRecord := by
    rw [List.filter_eq_self, List.forall_mem_map]
    exact hothers
  have hdropped : ¬ p n.toRecord = true := by
    rw [hn]
    decide
  rw [← hkept, List.map_append, List.map_append, List.map_cons, List.filter_append,
    List.filter_append, List.filter_cons_of_neg hdropped]

/-- All nodes are kept. -/
theorem filter_records_self (h : ∀ m ∈ ns, p m.toRecord = true) :
    (ns.map Node.toRecord).filter p = ns.map Node.toRecord := by
  rw [List.filter_eq_self, List.forall_mem_map]
  exact h

theorem map_setValue_of_ne {c : Cookie} (h : ∀ m ∈ ns, m.cookie ≠ c) (v : V) :
    (ns.map Node.toRecord).map (Record.setValue c v) = ns.map Node.toRecord := by
  rw [List.map_map]
  exact List.map_congr_left fun m hm => if_neg (h m hm)

end Records

namespace Index

/-- The index holds the bindings of a directory. -/
structure Represents (ix : Index G V) (ns : List (Node V)) (d : Directory V) : Prop where
  /-- The index is laid out by its nodes. -/
  layout : ix.Layout ns
  /-- The bindings are those of the nodes. -/
  records : d.records = ns.map Node.toRecord
  /-- The same cookies have been spent. -/
  last : d.last = ix.lastCookie
  /-- There is room for as many bindings as there may be slots. -/
  limit : d.limit = ix.maxCapacity
  /-- There are no more slots than there may be. -/
  bounded : ix.capacity ≤ ix.maxCapacity
  /-- The greatest number of slots is a power of two. -/
  power : ix.maxCapacity.isPowerOfTwo

namespace Represents

variable {ix ix' : Index G V} {pre post ns : List (Node V)} {n : Node V} {d : Directory V}
  {c : Cookie}
  {name : Name}

theorem find?_none (h : ix.Represents ns d) (hname : ∀ m ∈ ns, m.name ≠ name) :
    d.find? name = none := by
  rw [Directory.find?, h.records]
  exact find?_records_none fun m hm => decide_eq_false (hname m hm)

theorem find?_some (h : ix.Represents (pre ++ n :: post) d) : d.find? n.name = some n.toRecord := by
  rw [Directory.find?, h.records]
  exact find?_records (fun m hm => decide_eq_false (h.layout.name_ne m hm)) (decide_eq_true rfl)

theorem get?_none (h : ix.Represents ns d) (hc : ∀ m ∈ ns, m.cookie ≠ c) : d.get? c = none := by
  rw [Directory.get?, h.records]
  exact find?_records_none fun m hm => decide_eq_false (hc m hm)

theorem get?_some (h : ix.Represents (pre ++ n :: post) d) : d.get? n.cookie = some n.toRecord := by
  rw [Directory.get?, h.records]
  exact find?_records (fun m hm => decide_eq_false (h.layout.cookie_ne m hm)) (decide_eq_true rfl)

/-- A cookie is read from the table as it is bound. -/
theorem get?_eq (h : ix.Represents ns d) (c : Cookie) :
    (ix.get? c).map Entry.record = d.get? c := by
  rcases node_cases (fun n => n.cookie = c) ns with hnone | ⟨pre, n, post, rfl, rfl⟩
  · rw [h.get?_none hnone, Index.get?, h.layout.get?_eq_none_iff.2 hnone]
    rfl
  · rw [h.get?_some, Index.get?, h.layout.get?_cookie]
    rfl

/-- A name is looked up as it is bound. -/
theorem lookup_eq (h : ix.Represents ns d) (name : Name) :
    ∃ e, ix.lookup name = .ok e ∧ e.map Entry.record = d.find? name := by
  refine ⟨_, h.layout.lookup_scan name, ?_⟩
  rw [Directory.find?, h.records, ← map_record_weave [] .null ns, List.find?_map]
  rfl

theorem named_eq (h : ix.Represents ns d) (name : Name) :
    named name ns = (d.find? name).isSome := by
  rcases node_cases (fun n => n.name = name) ns with hnone | ⟨pre, n, post, rfl, rfl⟩
  · rw [h.find?_none hnone, Option.isSome_none, named_eq_false_iff]
    exact hnone
  · rw [h.find?_some, Option.isSome_some, named_iff]
    exact ⟨n, by simp, rfl⟩

/-- The directory after the nodes have become fewer in the same frame. -/
theorem keep {ns' : List (Node V)} (h : ix.Represents ns d) (h' : ix'.Threaded ns')
    (hframe : ix.SameFrame ix') {keep : Record V → Bool}
    (hkeep : (ns.map Node.toRecord).filter keep = ns'.map Node.toRecord) :
    ix'.Represents ns' (d.filter keep) where
  layout := h.layout.of_sameFrame h' hframe
  records := by rw [← hkeep, ← h.records]; rfl
  last := by rw [hframe.lastCookie]; exact h.last
  limit := by rw [hframe.maxCapacity]; exact h.limit
  bounded := by rw [hframe.capacity, hframe.maxCapacity]; exact h.bounded
  power := by rw [hframe.maxCapacity]; exact h.power

theorem exists_remove (h : ix.Represents ns d) (c : Cookie) :
    ∃ ix' ns', ix.remove c = .ok ((d.get? c).map Record.unlinked, ix') ∧
      ix'.Represents ns' (d.erase c) ∧ ix'.capacity = ix.capacity := by
  obtain ⟨ix', hremove, hrest, hframe⟩ := h.layout.toThreaded.exists_remove c
  have hanswer : (ix.get? c).map Entry.unlinked = (d.get? c).map Record.unlinked := by
    rw [← h.get?_eq c, Option.map_map]
    rfl
  have hkeep : (ns.map Node.toRecord).filter (fun r => r.cookie ≠ c) =
      (ns.filter fun n => n.cookie ≠ c).map Node.toRecord := by
    rw [List.filter_map]
    rfl
  rw [hanswer] at hremove
  exact ⟨ix', _, hremove, h.keep hrest hframe hkeep, hframe.capacity⟩

theorem exists_removeName (h : ix.Represents ns d) (name : Name) :
    ∃ ix' ns', ix.removeName name = .ok ((d.find? name).map Record.unlinked, ix') ∧
      ix'.Represents ns' (d.eraseName name) := by
  rw [removeName]
  rcases node_cases (fun n => n.name = name) ns with hnone | ⟨pre, n, post, rfl, rfl⟩
  · have hkeep : (ns.map Node.toRecord).filter (fun r => r.name ≠ name) = ns.map Node.toRecord :=
      filter_records_self fun m hm => decide_eq_true (hnone m hm)
    rw [h.find?_none hnone, h.layout.lookup_none hnone]
    exact ⟨ix, ns, rfl, h.keep h.layout.toThreaded (.refl ix) hkeep⟩
  · obtain ⟨ix', hremove, hrest, hframe⟩ := h.layout.remove_some
    have hkeep : ((pre ++ n :: post).map Node.toRecord).filter (fun r => r.name ≠ n.name) =
        (pre ++ post).map Node.toRecord :=
      filter_records (fun m hm => decide_eq_true (h.layout.name_ne m hm))
        (decide_eq_false (not_not.2 rfl))
    rw [h.find?_some, h.layout.lookup_some]
    exact ⟨ix', _, hremove, h.keep hrest hframe hkeep⟩

theorem exists_drain (h : ix.Represents ns d) :
    ∃ ix', ix.drain = .ok (d.records.map Record.unlinked, ix') ∧ ix'.Represents [] d.clear ∧
      ix'.capacity = ix.capacity := by
  obtain ⟨ix', hdrain, hnil, hframe⟩ := h.layout.toThreaded.drain_eq
  refine ⟨ix', ?_, h.keep hnil hframe ?_, hframe.capacity⟩
  · rw [hdrain, h.records, List.map_map]
    rfl
  · exact List.filter_eq_nil_iff.2 fun _ _ => by decide

theorem count_eq (h : ix.Represents ns d) : ix.count = d.records.length := by
  rw [h.layout.count, h.records, List.length_map]

theorem isEmpty_eq (h : ix.Represents ns d) : ix.isEmpty = d.records.isEmpty := by
  rw [Index.isEmpty, h.count_eq]
  cases d.records with
  | nil => rfl
  | cons r records => rfl

theorem exists_setValue (h : ix.Represents ns d) (c : Cookie) (v : V) :
    ∃ ix' ns', ix.setValue c v = ((d.get? c).map (·.value), ix') ∧
      ix'.Represents ns' (d.setValue c v) ∧ ix'.capacity = ix.capacity := by
  rcases node_cases (fun n => n.cookie = c) ns with hnone | ⟨pre, n, post, rfl, rfl⟩
  · rw [h.get?_none hnone]
    refine ⟨ix, ns, h.layout.setValue_none hnone v, { h with records := ?_ }, rfl⟩
    rw [← map_setValue_of_ne hnone v, ← h.records]
    rfl
  · obtain ⟨table, hset, hcap, hlayout⟩ := h.layout.setValue_some v
    have hother := h.layout.cookie_ne
    rw [List.forall_mem_append] at hother
    rw [h.get?_some]
    refine ⟨_, _, hset, ⟨hlayout, ?_, h.last, h.limit, ?_, h.power⟩, hcap⟩
    · have hn : n.toRecord.setValue n.cookie v = ({ n with value := v } : Node V).toRecord :=
        if_pos rfl
      change d.records.map (Record.setValue n.cookie v) = _
      rw [h.records, List.map_append, List.map_cons, List.map_append, List.map_cons,
        map_setValue_of_ne hother.1, map_setValue_of_ne hother.2, hn, List.map_append,
        List.map_cons]
    · exact (Nat.le_of_eq hcap).trans h.bounded

/-! ## Room -/

/-- A table grows up to its greatest size. -/
theorem grownCapacity_le (h : ix.Represents ns d) : ix.grownCapacity ≤ ix.maxCapacity := by
  rw [grownCapacity]
  split_ifs with hgrow
  · exact hgrow.2
  · exact h.bounded

/-- A table that has no room left has its greatest size, and all its slots are occupied. -/
theorem length_eq_limit (h : ix.Represents ns d) (hfull : ix.grownCapacity ≤ ix.count) :
    d.records.length = d.limit := by
  obtain ⟨hoccupied, hmax⟩ := (h.layout.isFull_iff h.power h.bounded).1 hfull
  calc d.records.length = ix.count := h.count_eq.symm
    _ = ix.maxCapacity := hoccupied.trans hmax
    _ = d.limit := h.limit.symm

/-! ## Enrolling -/

/-- The records before and after the place of a new name. -/
theorem filter_records_lt (hpre : ∀ m ∈ pre, m.name < name) (hpost : ∀ m ∈ post, name < m.name) :
    ((pre ++ post).map Node.toRecord).filter (fun r => r.name < name) = pre.map Node.toRecord ∧
      ((pre ++ post).map Node.toRecord).filter (fun r => name < r.name) =
        post.map Node.toRecord := by
  have hbefore := filter_records_self (p := fun r => r.name < name) fun m hm =>
    decide_eq_true (hpre m hm)
  have hafter := filter_records_self (p := fun r => name < r.name) fun m hm =>
    decide_eq_true (hpost m hm)
  have hnone : (post.map Node.toRecord).filter (fun r => r.name < name) = [] := by
    rw [List.filter_eq_nil_iff, List.forall_mem_map]
    exact fun m hm hlt => List.lt_asymm (hpost m hm) (of_decide_eq_true hlt)
  have hnone' : (pre.map Node.toRecord).filter (fun r => name < r.name) = [] := by
    rw [List.filter_eq_nil_iff, List.forall_mem_map]
    exact fun m hm hlt => List.lt_asymm (hpre m hm) (of_decide_eq_true hlt)
  rw [List.map_append, List.filter_append, List.filter_append, hbefore, hnone, hnone', hafter,
    List.append_nil, List.nil_append]
  exact ⟨rfl, rfl⟩

/-- An entry of a new name is bound to a fresh cookie where there is a slot for it. -/
theorem enroll_fresh [LevelSource G] (h : ix.Represents ns d) {e : Entry V}
    (he : e.isLinked = false) (hnamed : named e.name ns = false) (hmeans : ix.HasMeans)
    (hroom : ix.count < ix.grownCapacity) :
    ∃ c ix' ns', ∃ hfresh : d.last < c.val, ix.enroll e = .ok (.ok c, ix') ∧
      ix'.Represents ns' (d.insert e c hfresh) ∧ ix'.capacity = ix.grownCapacity ∧
      FirstFree (d.records.map Record.cookie) ix.grownCapacity d.last c := by
  obtain ⟨pre, post, c, ix', rfl, hpre, hpost, henroll, hlayout, hfirst, hlast, hcap, -, hmax, -⟩ :=
    h.layout.enroll_fresh he hnamed hmeans hroom
  have hcookies : d.records.map Record.cookie = (pre ++ post).map (·.cookie) := by
    rw [h.records, List.map_map]
    rfl
  rw [← hcookies, ← h.last] at hfirst
  refine ⟨c, ix', _, hfirst.after, henroll, ⟨hlayout, ?_, hlast.symm, ?_, ?_, ?_⟩, hcap, hfirst⟩
  · -- The place of the name cuts the nodes where it cuts the bindings.
    obtain ⟨hbefore, hafter⟩ := filter_records_lt hpre hpost
    change (d.records.filter fun r => r.name < e.name) ++
      ⟨e.name, e.value, c⟩ :: (d.records.filter fun r => e.name < r.name) = _
    rw [h.records, hbefore, hafter, List.map_append]
    rfl
  · rw [hmax]
    exact h.limit
  · rw [hcap, hmax]
    exact h.grownCapacity_le
  · rw [hmax]
    exact h.power

/-- The cookie of a refusal is spent, though nothing is bound to it. -/
theorem spend (h : ix.Represents ns d) (source : G) {c : Cookie}
    (hc : c.val = ix.lastCookie + 1) (hfresh : d.last < c.val) :
    ({ ix with lastCookie := ix.lastCookie + 1, source } : Index G V).Represents ns
      (d.spend c hfresh) :=
  ⟨h.layout.withLast (Nat.le_succ _) source, h.records, hc, h.limit, h.bounded, h.power⟩

/-- An entry is enrolled when its name is not bound and there is room, and refused otherwise. -/
theorem exists_enroll [LevelSource G] (h : ix.Represents ns d) {e : Entry V}
    (he : e.isLinked = false) (hmeans : ix.Affords (.enroll e)) :
    ∃ answer ix' ns' d', ix.apply (.enroll e) = .ok (answer, ix') ∧
      d.Step (.enroll e) answer d' ∧ ix'.Represents ns' d' := by
  have hnamed := h.named_eq e.name
  cases hfind : d.find? e.name with
  | some r =>
    rw [hfind] at hnamed
    rw [apply, h.layout.enroll_duplicate he hnamed]
    exact ⟨_, _, ns, d, rfl, .duplicate hfind, { h with layout := h.layout.withSource _ }⟩
  | none =>
    rw [hfind] at hnamed
    have hmeans := h.layout.hasMeans_of_affords hnamed hmeans
    rcases Nat.lt_or_ge ix.count ix.grownCapacity with hroom | hfull
    · obtain ⟨c, ix', ns', hfresh, henroll, h', -⟩ := h.enroll_fresh he hnamed hmeans hroom
      have hlt : d.records.length < d.limit := by
        have := h.grownCapacity_le
        rw [← h.count_eq, h.limit]
        omega
      rw [apply, henroll]
      exact ⟨_, ix', ns', _, rfl, .enrolled hfind hlt hfresh, h'⟩
    · have hfresh : d.last < (⟨ix.lastCookie + 1⟩ : Cookie).val := by
        rw [h.last]
        exact Nat.lt_succ_self _
      rw [apply, h.layout.enroll_full he hnamed hmeans hfull]
      exact ⟨_, _, ns, _, rfl, .full hfind (h.length_eq_limit hfull) hfresh, h.spend _ rfl hfresh⟩

/-- Every request that an index can serve gets an answer that the directory of its nodes may
give. -/
theorem exists_serve [LevelSource G] (h : ix.Represents ns d) {request : Request V}
    (hrequest : request.Unlinked) (hmeans : ix.CanServe request) :
    ∃ answer ix' ns' d', ix.serve request = .ok (answer, ix') ∧ d.Step request answer d' ∧
      ix'.Represents ns' d' := by
  cases request with
  | enroll e => exact h.exists_enroll hrequest hmeans
  | remove c =>
    obtain ⟨ix', ns', hremove, h', -⟩ := h.exists_remove c
    refine ⟨_, ix', ns', _, ?_, .removed d c, h'⟩
    rw [serve, apply, hremove]
    rfl
  | removeName name =>
    obtain ⟨ix', ns', hremove, h'⟩ := h.exists_removeName name
    refine ⟨_, ix', ns', _, ?_, .removedName d name, h'⟩
    rw [serve, hremove]
    rfl
  | get c =>
    refine ⟨_, ix, ns, d, ?_, .got d c, h⟩
    rw [← h.get?_eq c]
    rfl
  | contains c =>
    refine ⟨_, ix, ns, d, ?_, .contained d c, h⟩
    rw [← h.get?_eq c, Option.isSome_map]
    rfl
  | set c v =>
    obtain ⟨ix', ns', hset, h', -⟩ := h.exists_setValue c v
    refine ⟨_, ix', ns', _, ?_, .changed d c v, h'⟩
    rw [serve, apply, hset]
  | length =>
    refine ⟨_, ix, ns, d, ?_, .counted d, h⟩
    rw [← h.count_eq]
    rfl
  | isEmpty =>
    refine ⟨_, ix, ns, d, ?_, .askedEmpty d, h⟩
    rw [← h.isEmpty_eq]
    rfl
  | lookup name =>
    obtain ⟨e, hlookup, he⟩ := h.lookup_eq name
    refine ⟨_, ix, ns, d, ?_, .looked d name, h⟩
    rw [serve, apply, hlookup, ← he]
    rfl
  | drain =>
    obtain ⟨ix', hdrain, h', -⟩ := h.exists_drain
    refine ⟨_, ix', [], _, ?_, .drained d, h'⟩
    rw [serve, apply, hdrain]
    rfl

/-- A request that an index cannot serve stops at what the index is short of. -/
theorem serve_eq_error [LevelSource G] (h : ix.Represents ns d) {request : Request V}
    (hrequest : request.Unlinked) (hmeans : ¬ ix.CanServe request) :
    ix.serve request = .error ix.shortage := by
  cases request with
  | enroll e =>
    have he : (Operation.enroll e).Unlinked := hrequest
    exact h.layout.apply_eq_error he hmeans
  | _ => exact absurd trivial hmeans

theorem entries_eq (h : ix.Represents ns d) :
    (ix.entries.map fun es => es.map Entry.record) = .ok d.records := by
  rw [h.layout.entries_eq, h.records, ← map_record_weave [] .null ns]
  rfl

/-- The directory of an index follows it through every run of requests. -/
theorem follows [LevelSource G] (h : ix.Represents ns d) {requests : List (Request V)}
    (hrequests : ∀ request ∈ requests, request.Unlinked) : ix.Follows d requests := by
  -- By induction on the requests, from whatever index and directory the ones before have left.
  induction requests generalizing ix ns d with
  | nil => trivial
  | cons request requests ih =>
    rw [List.forall_mem_cons] at hrequests
    refine ⟨fun hmeans => ?_, h.serve_eq_error hrequests.1⟩
    obtain ⟨answer, ix', ns', d', hserve, hstep, h'⟩ := h.exists_serve hrequests.1 hmeans
    exact ⟨answer, ix', d', hserve, hstep, h'.entries_eq, ih h' hrequests.2⟩

end Represents

/-- A new index holds the directory without bindings. -/
theorem New.represents [LevelSource G] {ix : Index G V} {config : Config} {entropy : UInt64}
    (h : ix.New config entropy) : ix.Represents [] (.empty config.mostSlots) where
  layout := h.layout
  records := rfl
  last := h.lastCookie.symm
  limit := h.maxCapacity.symm
  bounded := h.capacity_le
  power := by
    rw [h.maxCapacity]
    exact config.isPowerOfTwo_mostSlots

/-- There is a new index for all sizes that fit, and it answers every run of requests as a directory
does that starts without bindings and has room for as many as there may be slots. -/
theorem follows_create [LevelSource G] {config : Config} (hfits : config.Fits) (entropy : UInt64)
    {requests : List (Request V)} (h : ∀ request ∈ requests, request.Unlinked) :
    ∃ ix : Index G V, create config entropy = .ok ix ∧
      ix.Follows (.empty config.mostSlots) requests := by
  obtain ⟨ix, hcreate, hnew⟩ := exists_create (G := G) (V := V) hfits entropy
  exact ⟨ix, hcreate, hnew.represents.follows h⟩

/-- Three entries ask for two slots, and the first one to come is removed by its name. -/
theorem follows_create_small :
    ({ initialCapacity := 1, maxCapacity := 2 } : Config).Fits ∧
      ∃ ix : Index ChaCha Nat,
        create { initialCapacity := 1, maxCapacity := 2 } 0 = .ok ix ∧ ix.Follows (.empty 2)
          [.enroll { name := [98], value := 1 }, .enroll { name := [97], value := 2 },
            .enroll { name := [99], value := 3 }, .removeName [98], .get ⟨1⟩, .drain] := by
  have hfits : ({ initialCapacity := 1, maxCapacity := 2 } : Config).Fits :=
    ⟨by decide, by decide, by decide⟩
  refine ⟨hfits, follows_create hfits 0 fun request hrequest => ?_⟩
  simp only [List.mem_cons, List.not_mem_nil, or_false] at hrequest
  rcases hrequest with rfl | rfl | rfl | rfl | rfl | rfl
  · exact rfl
  · exact rfl
  · exact rfl
  all_goals trivial

/-- There is no room for 2^60 slots, and the greatest size that a word holds cannot be rounded up;
of either there is no index. -/
theorem create_beyond :
    (create { initialCapacity := 1 <<< 60 } 0 : Except Fault (Index ChaCha Nat)) = .error .noRoom ∧
      (create { initialCapacity := (1 <<< 64) - 1 } 0 : Except Fault (Index ChaCha Nat)) =
        .error .sizeTooLarge := by
  decide +kernel

end Index

end NameIndex
