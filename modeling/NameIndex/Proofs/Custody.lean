import Mathlib.Data.List.Perm.Basic
import NameIndex.Proofs.Bookkeeping

/-!
# The custody of entries

An index and its caller pass entries to each other. `Custody` is an index with the entries that its
caller owns, and a `Deed` is one thing that the caller does with them. What an operation moves is
told by the ledger that the index keeps: the entries handed back and the bindings left are those
that were brought and bound before (`Ledger.apply_perm`), and all that is handed back is free
(`Ledger.handedBack_free`). So no deed of any run finds an owned entry that is still linked, and
none that only moves entries loses, doubles or alters one. A run stops only at a new name that the
index cannot afford (`Sound.run_stops`).
-/

namespace NameIndex

variable {G V : Type}

/-- What an entry is apart from any index. -/
def Entry.pair (e : Entry V) : Name × V := (e.name, e.value)

/-- What a record shows of an entry apart from the index. -/
def Record.pair (r : Record V) : Name × V := (r.name, r.value)

/-- An entry is in no index: it has neither a cookie nor links. -/
structure Entry.Free (e : Entry V) : Prop where
  /-- Its cookie is null. -/
  cookie : e.cookie = .null
  /-- It takes part in no level. -/
  height : e.height = 0
  /-- It points back to no entry. -/
  prev : e.prev = .null

theorem Entry.Free.isLinked {e : Entry V} (h : e.Free) : e.isLinked = false := by
  rw [Entry.isLinked, List.length_eq_zero_iff.1 h.height]
  rfl

/-- Values do not matter. -/
theorem Entry.Free.withValue {e : Entry V} (h : e.Free) (value : V) :
    ({ e with value } : Entry V).Free :=
  ⟨h.cookie, h.height, h.prev⟩

theorem Entry.free_unlinked (e : Entry V) : e.unlinked.Free := ⟨rfl, rfl, rfl⟩

/-- A copy is free. -/
theorem Entry.free_of_copied {o : Option (Entry V)} :
    ∀ e ∈ (o.map Entry.unlinked).toList, e.Free := by
  intro e he
  obtain ⟨e₀, -, rfl⟩ := Option.map_eq_some_iff.1 (Option.mem_toList.1 he)
  exact e₀.free_unlinked

theorem Record.free_unlinked (r : Record V) : r.unlinked.Free := ⟨rfl, rfl, rfl⟩

/-- The entries that an operation brings to the index. -/
def Operation.brought : Operation V → List (Entry V)
  | .enroll e => [e]
  | _ => []

/-- Whether an operation leaves the values of entries as they are. -/
def Operation.Moves : Operation V → Prop
  | .set _ _ => False
  | _ => True

/-- An operation that brings free entries hands over none that is linked. -/
theorem Operation.unlinked_of_free {op : Operation V} (h : ∀ e ∈ op.brought, e.Free) :
    op.Unlinked := by
  cases op with
  | enroll e => exact (h e List.mem_cons_self).isLinked
  | _ => trivial

/-- An operation that brings nothing is always afforded. -/
theorem Index.affords_of_brought {ix : Index G V} {op : Operation V} (hop : op.brought = []) :
    ix.Affords op := by
  cases op with
  | enroll e => cases hop
  | _ => exact trivial

/-- An index, and the entries that its caller owns. -/
structure Custody (G V : Type) where
  /-- The index. -/
  index : Index G V
  /-- The entries of the caller. -/
  pool : List (Entry V)

/-- One thing that a caller does with an index and with the entries of a pool. -/
inductive Deed (V : Type) where
  /-- Makes an entry. -/
  | make (name : Name) (value : V)
  /-- Copies an entry of the pool. -/
  | copyOwned (place : Nat)
  /-- Copies the entry that the index holds under a cookie. -/
  | copyHeld (cookie : Cookie)
  /-- Parts with an entry of the pool. -/
  | discard (place : Nat)
  /-- Changes the value of an entry of the pool. -/
  | revalue (place : Nat) (value : V)
  /-- Enrolls an entry of the pool. -/
  | enroll (place : Nat)
  /-- Carries out an operation that takes no entry. -/
  | operate (op : Operation V) (h : op.brought = [])

/-- Whether a deed only moves entries. The others make them, part with them or change values. -/
def Deed.Moves : Deed V → Prop
  | .enroll _ => True
  | .operate op _ => op.Moves
  | _ => False

namespace Custody

/-- A new index, and no entry yet. -/
def start [LevelSource G] (config : Config) (entropy : UInt64) : Except Fault (Custody G V) := do
  let index ← Index.create config entropy
  return ⟨index, []⟩

/-- The names and values of all entries, wherever they are. -/
def pairs (s : Custody G V) : List (Name × V) := (s.pool ++ s.index.table.live).map Entry.pair

/-- Carries out an operation and keeps what it hands back. -/
def operate [LevelSource G] (s : Custody G V) (op : Operation V) : Except Fault (Custody G V) := do
  let (answer, index) ← s.index.apply op
  return ⟨index, s.pool ++ answer.handedBack⟩

/-- Carries out a deed. Without an entry in the place or under the cookie in question there is
nothing to do. -/
def act [LevelSource G] (s : Custody G V) : Deed V → Except Fault (Custody G V)
  | .make name value => .ok { s with pool := s.pool ++ [{ name, value }] }
  | .copyOwned place =>
    .ok { s with pool := s.pool ++ (s.pool[place]?.map Entry.unlinked).toList }
  | .copyHeld c =>
    .ok { s with pool := s.pool ++ ((s.index.get? c).map Entry.unlinked).toList }
  | .discard place => .ok { s with pool := s.pool.eraseIdx place }
  | .revalue place value => .ok { s with pool := s.pool.modify place fun e => { e with value } }
  | .enroll place =>
    match s.pool[place]? with
    | some e => { s with pool := s.pool.eraseIdx place }.operate (.enroll e)
    | none => .ok s
  | .operate op _ => s.operate op

/-- Carries out deeds in turn, up to the first that fails. -/
def run [LevelSource G] (s : Custody G V) : List (Deed V) → Except Fault (Custody G V)
  | [] => .ok s
  | deed :: deeds => do
    let s ← s.act deed
    s.run deeds

/-- Whether the index can answer what a deed asks of it. -/
def Affords (s : Custody G V) : Deed V → Prop
  | .enroll place => ∀ e, s.pool[place]? = some e → s.index.Affords (.enroll e)
  | _ => True

/-- Whether the index can answer what each of some deeds asks of it when its turn comes. -/
def AffordsAll [LevelSource G] : Custody G V → List (Deed V) → Prop
  | _, [] => True
  | s, deed :: deeds => s.Affords deed ∧ ∀ s', s.act deed = .ok s' → s'.AffordsAll deeds

end Custody

/-! ## What a ledger moves -/

namespace Ledger

variable {op : Operation V}

/-- What is handed back and what is bound after an operation are what was brought and what was bound
before. -/
theorem apply_perm (l : Ledger V) (hop : op.Moves) :
    ((l.apply op).1.handedBack.map Entry.pair ++ (l.apply op).2.records.map Record.pair).Perm
      (op.brought.map Entry.pair ++ l.records.map Record.pair) := by
  cases op with
  | enroll e =>
    rw [apply]
    rcases l.enroll_cases e with h | ⟨c, slot, hc, h⟩ | ⟨c, slots, hc, habsent, h⟩
    · rw [h]
      exact .refl _
    · rw [h]
      exact .refl _
    · rw [h]
      exact (Directory.insert_perm hc habsent).map Record.pair
  | remove c =>
    have hperm := (l.get?_erase_perm c).map Record.pair
    rw [List.map_append] at hperm
    cases hget : l.get? c with
    | none =>
      rw [hget] at hperm
      rw [apply, hget]
      exact hperm
    | some r =>
      rw [hget] at hperm
      rw [apply, hget]
      exact hperm
  | drain =>
    have hnone : (l.apply .drain).2.records = [] := List.filter_eq_nil_iff.2 fun _ _ => by decide
    rw [hnone, List.map_nil, List.append_nil]
    change ((l.records.map Record.unlinked).map Entry.pair).Perm (l.records.map Record.pair)
    rw [List.map_map]
    exact .refl _
  | set c v => exact absurd hop not_false
  | _ => exact .refl _

/-- What is handed back is free if what was brought is. -/
theorem handedBack_free (l : Ledger V) (hop : ∀ e ∈ op.brought, e.Free) :
    ∀ e ∈ (l.apply op).1.handedBack, e.Free := by
  intro e he
  cases op with
  | enroll e₀ =>
    have hfree : e₀.Free := hop e₀ List.mem_cons_self
    rw [apply] at he
    rcases l.enroll_cases e₀ with h | ⟨c, slot, hc, h⟩ | ⟨c, slots, hc, habsent, h⟩
    · rw [h] at he
      rwa [List.mem_singleton.1 he]
    · rw [h] at he
      rwa [List.mem_singleton.1 he]
    · rw [h] at he
      exact absurd he List.not_mem_nil
  | remove c =>
    obtain ⟨r, -, rfl⟩ := Option.map_eq_some_iff.1 (Option.mem_toList.1 he)
    exact r.free_unlinked
  | drain =>
    obtain ⟨r, -, rfl⟩ := List.mem_map.1 he
    exact r.free_unlinked
  | _ => exact absurd he List.not_mem_nil

end Ledger

/-- The entries held are those of the bindings. -/
theorem Index.Keeps.live_perm {ix : Index G V} {ns : List (Node V)} {l : Ledger V}
    (h : ix.Keeps ns l) : (ix.table.live.map Entry.pair).Perm (l.records.map Record.pair) := by
  have hperm := h.layout.live_perm.map Entry.pair
  rw [map_weave Entry.pair (fun n => n.toRecord.pair) (fun _ => rfl)] at hperm
  rw [h.records, List.map_map]
  exact hperm

/-! ## What a deed moves -/

namespace Custody

/-- The index keeps a ledger, and the entries of its caller are free. -/
structure Sound (s : Custody G V) : Prop where
  /-- The index is at one with some ledger. -/
  index : ∃ ns l, s.index.Keeps ns l
  /-- The entries of the pool are in no index. -/
  pool : ∀ e ∈ s.pool, e.Free

/-- The entries of the pool are counted, and those of the index. -/
theorem pairs_eq (s : Custody G V) :
    s.pairs = s.pool.map Entry.pair ++ s.index.table.live.map Entry.pair :=
  List.map_append

theorem sound_of_start [LevelSource G] {config : Config} {entropy : UInt64} {s : Custody G V}
    (h : start config entropy = .ok s) : s.Sound := by
  obtain ⟨ix, hcreate, hs⟩ := bind_eq_ok_iff.1 h
  cases hs
  exact ⟨⟨[], _, (Index.new_of_create hcreate).keeps⟩, fun _ he => absurd he List.not_mem_nil⟩

namespace Sound

variable {s : Custody G V} {op : Operation V}

/-- Any free entries may stand in the pool. -/
theorem withPool (h : s.Sound) {pool : List (Entry V)} (hpool : ∀ e ∈ pool, e.Free) :
    ({ s with pool } : Custody G V).Sound :=
  { h with pool := hpool }

/-- One entry of the pool is given away. -/
theorem withoutPlace (h : s.Sound) (place : Nat) :
    ({ s with pool := s.pool.eraseIdx place } : Custody G V).Sound :=
  h.withPool fun e he => h.pool e (List.mem_of_mem_eraseIdx he)

variable [LevelSource G]

/-- An operation that brings free entries hands back free entries. Unless it changes values, what is
then in the pool and in the index is what was there before and what the operation has brought. -/
theorem exists_operate (h : s.Sound) (hop : ∀ e ∈ op.brought, e.Free)
    (hmeans : s.index.Affords op) :
    ∃ s', s.operate op = .ok s' ∧ s'.Sound ∧
      (op.Moves → s'.pairs.Perm (op.brought.map Entry.pair ++ s.pairs)) := by
  obtain ⟨ns, l, hkeeps⟩ := h.index
  obtain ⟨ix', ns', happly, hkeeps'⟩ :=
    hkeeps.exists_apply (Operation.unlinked_of_free hop) hmeans
  refine ⟨⟨ix', s.pool ++ (l.apply op).1.handedBack⟩, ?_, ⟨⟨ns', _, hkeeps'⟩, ?_⟩, fun hmoves => ?_⟩
  · rw [operate, happly]
    rfl
  · rw [List.forall_mem_append]
    exact ⟨h.pool, l.handedBack_free hop⟩
  · -- The index and its ledger hold the same pairs, before the operation and after it.
    have hafter := hkeeps'.live_perm.append_left ((l.apply op).1.handedBack.map Entry.pair)
    have hbefore := hkeeps.live_perm.append_left (op.brought.map Entry.pair)
    have hmoved := (hafter.trans (l.apply_perm hmoves)).trans hbefore.symm
    rw [pairs_eq, pairs_eq, List.map_append, List.append_assoc]
    exact (hmoved.append_left _).trans (List.perm_append_comm_assoc _ _ _)

/-- An operation that the index does not afford stops at what the index is short of. -/
theorem operate_eq_error (h : s.Sound) (hop : ∀ e ∈ op.brought, e.Free)
    (hmeans : ¬ s.index.Affords op) : s.operate op = .error s.index.shortage := by
  obtain ⟨ns, l, hkeeps⟩ := h.index
  rw [operate, hkeeps.layout.apply_eq_error (Operation.unlinked_of_free hop) hmeans, error_bind]

/-- A deed that the index affords is done and leaves a sound custody. If it only moves entries, the
names and values of all entries are those before it. -/
theorem exists_act (h : s.Sound) {deed : Deed V} (hmeans : s.Affords deed) :
    ∃ s', s.act deed = .ok s' ∧ s'.Sound ∧ (deed.Moves → s'.pairs.Perm s.pairs) := by
  cases deed with
  | make name value =>
    have hmade : ∀ e ∈ [({ name, value } : Entry V)], e.Free :=
      List.forall_mem_singleton.2 ⟨rfl, rfl, rfl⟩
    exact ⟨_, rfl, h.withPool (List.forall_mem_append.2 ⟨h.pool, hmade⟩), False.elim⟩
  | copyOwned place =>
    exact ⟨_, rfl, h.withPool (List.forall_mem_append.2 ⟨h.pool, Entry.free_of_copied⟩), False.elim⟩
  | copyHeld c =>
    exact ⟨_, rfl, h.withPool (List.forall_mem_append.2 ⟨h.pool, Entry.free_of_copied⟩), False.elim⟩
  | discard place => exact ⟨_, rfl, h.withoutPlace place, False.elim⟩
  | revalue place value =>
    refine ⟨_, rfl, h.withPool fun e he => ?_, False.elim⟩
    obtain ⟨i, hi⟩ := List.mem_iff_getElem?.1 he
    rw [List.getElem?_modify] at hi
    obtain ⟨e₀, he₀, rfl⟩ := Option.map_eq_some_iff.1 hi
    have hfree := h.pool e₀ (List.mem_of_getElem? he₀)
    split_ifs
    · exact hfree.withValue value
    · exact hfree
  | enroll place =>
    cases hat : s.pool[place]? with
    | none =>
      refine ⟨s, ?_, h, fun _ => .refl _⟩
      rw [act, hat]
    | some e =>
      obtain ⟨hlt, rfl⟩ := List.getElem?_eq_some_iff.1 hat
      have hfree : ∀ e ∈ (Operation.enroll s.pool[place]).brought, e.Free :=
        List.forall_mem_singleton.2 (h.pool _ (List.getElem_mem hlt))
      obtain ⟨s', hs', hsound, hperm⟩ :=
        (h.withoutPlace place).exists_operate hfree (hmeans _ hat)
      refine ⟨s', ?_, hsound, fun _ => (hperm trivial).trans ?_⟩
      · rw [act, hat]
        exact hs'
      · -- The entry taken out of the pool is the one that the operation has brought.
        have hpool := (List.getElem_cons_eraseIdx_perm hlt).map Entry.pair
        rw [pairs_eq, pairs_eq, ← List.append_assoc]
        exact hpool.append_right _
  | operate op hop =>
    have hnone : ∀ e ∈ op.brought, e.Free := by
      rw [hop]
      exact fun e he => absurd he List.not_mem_nil
    obtain ⟨s', hs', hsound, hperm⟩ := h.exists_operate hnone (Index.affords_of_brought hop)
    rw [hop] at hperm
    exact ⟨s', hs', hsound, hperm⟩

/-- A deed that the index does not afford stops at what the index is short of. -/
theorem act_eq_error (h : s.Sound) {deed : Deed V} (hmeans : ¬ s.Affords deed) :
    s.act deed = .error s.index.shortage := by
  cases deed with
  | enroll place =>
    cases hat : s.pool[place]? with
    | none => exact absurd (fun e he => nomatch hat.symm.trans he) hmeans
    | some e =>
      have hfree : ∀ e₁ ∈ (Operation.enroll e).brought, e₁.Free :=
        List.forall_mem_singleton.2 (h.pool _ (List.mem_of_getElem? hat))
      have hnot : ¬ s.index.Affords (.enroll e) := fun haffords => hmeans fun e' he' => by
        rw [hat] at he'
        cases he'
        exact haffords
      rw [act, hat]
      exact (h.withoutPlace place).operate_eq_error hfree hnot
  | _ => exact absurd trivial hmeans

/-- What a deed leaves is sound, and if it only moves entries there are the same names and values as
before. -/
theorem of_act (h : s.Sound) {deed : Deed V} {s' : Custody G V} (hact : s.act deed = .ok s') :
    s'.Sound ∧ (deed.Moves → s'.pairs.Perm s.pairs) := by
  by_cases hmeans : s.Affords deed
  · obtain ⟨s₁, hact₁, h₁⟩ := h.exists_act hmeans
    rw [hact] at hact₁
    cases hact₁
    exact h₁
  · rw [h.act_eq_error hmeans] at hact
    cases hact

/-- What a run of deeds leaves is sound. -/
theorem of_run (h : s.Sound) {deeds : List (Deed V)} {s' : Custody G V}
    (hrun : s.run deeds = .ok s') : s'.Sound := by
  -- By induction on the deeds, from whatever custody the ones before have left.
  induction deeds generalizing s with
  | nil =>
    cases hrun
    exact h
  | cons deed deeds ih =>
    obtain ⟨s₁, hact, hrest⟩ := bind_eq_ok_iff.1 hrun
    exact ih (h.of_act hact).1 hrest

/-- All deeds of a run that the index affords are done. -/
theorem exists_run (h : s.Sound) {deeds : List (Deed V)} (hmeans : s.AffordsAll deeds) :
    ∃ s', s.run deeds = .ok s' := by
  induction deeds generalizing s with
  | nil => exact ⟨s, rfl⟩
  | cons deed deeds ih =>
    obtain ⟨s₁, hact, h₁, -⟩ := h.exists_act hmeans.1
    obtain ⟨s₂, hrun⟩ := ih h₁ (hmeans.2 s₁ hact)
    refine ⟨s₂, ?_⟩
    rw [run, hact, ok_bind]
    exact hrun

/-- A run that stops does so for want of cookies, or of room for the table. -/
theorem run_stops (h : s.Sound) {deeds : List (Deed V)} {f : Fault}
    (hstops : s.run deeds = .error f) : f.IsShortage := by
  induction deeds generalizing s with
  | nil => cases hstops
  | cons deed deeds ih =>
    rw [run] at hstops
    by_cases hmeans : s.Affords deed
    · obtain ⟨s₁, hact, h₁, -⟩ := h.exists_act hmeans
      rw [hact] at hstops
      exact ih h₁ hstops
    · rw [h.act_eq_error hmeans] at hstops
      cases hstops
      exact s.index.isShortage_shortage

/-- After an operation the index is good for one operation less. -/
theorem goodFor_of_operate (h : s.Sound) (hop : ∀ e ∈ op.brought, e.Free) {n : Nat}
    (hgood : s.index.GoodFor (n + 1)) {s' : Custody G V} (hoperate : s.operate op = .ok s') :
    s'.index.GoodFor n := by
  obtain ⟨ns, l, hkeeps⟩ := h.index
  obtain ⟨⟨answer, ix'⟩, happly, hs'⟩ := bind_eq_ok_iff.1 hoperate
  cases hs'
  exact hkeeps.goodFor_of_apply hgood (Operation.unlinked_of_free hop) happly

/-- So it is after a deed. -/
theorem goodFor_of_act (h : s.Sound) {n : Nat} (hgood : s.index.GoodFor (n + 1)) {deed : Deed V}
    {s' : Custody G V} (hact : s.act deed = .ok s') : s'.index.GoodFor n := by
  have hless : s.index.GoodFor n := hgood.mono (Nat.le_succ n)
  cases deed with
  | enroll place =>
    cases hat : s.pool[place]? with
    | none =>
      rw [act, hat] at hact
      cases hact
      exact hless
    | some e =>
      have hfree : ∀ e₁ ∈ (Operation.enroll e).brought, e₁.Free :=
        List.forall_mem_singleton.2 (h.pool _ (List.mem_of_getElem? hat))
      rw [act, hat] at hact
      exact (h.withoutPlace place).goodFor_of_operate hfree hgood hact
  | operate op hop =>
    refine h.goodFor_of_operate (fun e he => ?_) hgood hact
    rw [hop] at he
    exact absurd he List.not_mem_nil
  | _ =>
    cases hact
    exact hless

/-- The index affords every run of as many deeds as it is good for. -/
theorem affordsAll_of_goodFor (h : s.Sound) {deeds : List (Deed V)}
    (hgood : s.index.GoodFor deeds.length) : s.AffordsAll deeds := by
  induction deeds generalizing s with
  | nil => trivial
  | cons deed deeds ih =>
    obtain ⟨ns, l, hkeeps⟩ := h.index
    refine ⟨?_, fun s' hact => ih (h.of_act hact).1 (h.goodFor_of_act hgood hact)⟩
    cases deed with
    | enroll place => exact fun e _ => hkeeps.affords_of_goodFor hgood _
    | _ => exact trivial

end Sound

/-- Every run of deeds on a new index and the entries that its caller makes, copies or is handed
back comes to its end if the index affords it, and stops only for want of cookies or of room
otherwise: no entry that is enrolled is ever linked, for all entries of the pool have the null
cookie, no levels and no back link. Every deed that may come next is done as well if the index
affords it, and if it only moves entries it leaves the names and values of all entries as they
are. -/
theorem entries_conserved [LevelSource G] {config : Config} {entropy : UInt64} {s₀ : Custody G V}
    (hstart : start config entropy = .ok s₀) (deeds : List (Deed V)) :
    (s₀.AffordsAll deeds → ∃ s, s₀.run deeds = .ok s) ∧
      (∀ f, s₀.run deeds = .error f → f.IsShortage) ∧
      ∀ s, s₀.run deeds = .ok s →
        (∀ e ∈ s.pool, e.cookie = .null ∧ e.height = 0 ∧ e.prev = .null) ∧
        ∀ deed : Deed V,
          (s.Affords deed → ∃ s', s.act deed = .ok s' ∧ (deed.Moves → s'.pairs.Perm s.pairs)) ∧
          (¬ s.Affords deed → s.act deed = .error s.index.shortage) := by
  have h₀ := sound_of_start hstart
  refine ⟨h₀.exists_run, fun f => h₀.run_stops, fun s hrun => ⟨fun e he => ?_, fun deed => ?_⟩⟩
  · have hfree := (h₀.of_run hrun).pool e he
    exact ⟨hfree.cookie, hfree.height, hfree.prev⟩
  · refine ⟨fun hmeans => ?_, (h₀.of_run hrun).act_eq_error⟩
    obtain ⟨s', hact, -, hperm⟩ := (h₀.of_run hrun).exists_act hmeans
    exact ⟨s', hact, hperm⟩

/-- Of two entries of one name the second is refused, and when the first has been removed neither is
linked. -/
theorem entries_conserved_twins :
    ∃ s₀ s : Custody ChaCha Nat, start ⟨2, 2, some 0⟩ 0 = .ok s₀ ∧
      s₀.run [.make [97] 7, .make [97] 8, .enroll 0, .enroll 0, .operate (.remove ⟨1⟩) rfl] =
        .ok s ∧ ∀ e ∈ s.pool, e.cookie = .null ∧ e.height = 0 ∧ e.prev = .null := by
  have hfits : Config.Fits ⟨2, 2, some 0⟩ := ⟨by decide, by decide, by decide⟩
  obtain ⟨ix, hcreate, hnew⟩ := Index.exists_create (G := ChaCha) (V := Nat) hfits 0
  have hstart : start ⟨2, 2, some 0⟩ 0 = .ok (⟨ix, []⟩ : Custody ChaCha Nat) := by
    rw [start, hcreate]
    rfl
  obtain ⟨hdone, -, hfree⟩ := entries_conserved hstart
    [.make [97] 7, .make [97] 8, .enroll 0, .enroll 0, .operate (.remove ⟨1⟩) rfl]
  have hgood : ix.GoodFor 5 := hnew.goodFor (by decide) (by decide)
  obtain ⟨s, hrun⟩ := hdone ((sound_of_start hstart).affordsAll_of_goodFor hgood)
  obtain ⟨hpool, -⟩ := hfree s hrun
  exact ⟨_, s, hstart, hrun, hpool⟩

end Custody

end NameIndex
