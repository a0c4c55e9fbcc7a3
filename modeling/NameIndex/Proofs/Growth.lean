import Mathlib.Order.Bounds.Defs
import NameIndex.Proofs.Bookkeeping

/-!
# How the table grows

The table starts with the configured number of slots, rounded up, and doubles now and then, up to a
greatest size (`isLeast_firstSlots`, `isLeast_mostSlots`). It doubles when an entry is enrolled that
finds half of the slots occupied, and never else (`Ledger.apply_slots`). So the number of slots goes
by the largest number of entries that there have been, and not by the number of enrolments: `Sized`
says how, an operation preserves it (`Ledger.apply_sized`), and hence a run does
(`Ledger.run_sized`).
-/

namespace NameIndex

variable {G V : Type}

/-! ## Rounding -/

namespace Config

variable (config : Config)

/-- The first number of slots is the least power of two that is not below the one wanted. -/
theorem isLeast_firstSlots :
    IsLeast {p : Nat | p.isPowerOfTwo ∧ config.initialCapacity ≤ p} config.firstSlots :=
  ⟨⟨config.isPowerOfTwo_firstSlots, le_leastPower _⟩, fun _ ⟨hp, hle⟩ => leastPower_le hp hle⟩

/-- The greatest number of slots is the least power of two that is not below the one wanted, nor
below the first number of slots. -/
theorem isLeast_mostSlots :
    IsLeast {p : Nat | p.isPowerOfTwo ∧ config.maxCapacity ≤ p ∧ config.firstSlots ≤ p}
      config.mostSlots := by
  refine ⟨⟨config.isPowerOfTwo_mostSlots, ?_, Nat.le_max_right _ _⟩,
    fun p ⟨hp, hmax, hfirst⟩ => ?_⟩
  · exact Nat.le_trans (le_leastPower _) (Nat.le_max_left _ _)
  · exact Nat.max_le.2 ⟨leastPower_le hp hmax, hfirst⟩

end Config

/-! ## The number of slots -/

/-- What is known of the number of slots and of entries of an index that started with `first` slots,
may have `most`, and has had up to `peak` entries. -/
structure Sized (first most peak slots count : Nat) : Prop where
  /-- The number of slots is a power of two. -/
  power : slots.isPowerOfTwo
  /-- It has doubled a number of times. -/
  doublings : ∃ k, slots = first * Nat.pow 2 k
  /-- It is never less than at first. -/
  first_le : first ≤ slots
  /-- It never exceeds the greatest one. -/
  le_most : slots ≤ most
  /-- There is a slot for every entry. -/
  occupied : count ≤ slots
  /-- There are not many more slots than there have been entries. -/
  peaked : slots ≤ max first (4 * (peak - 1))
  /-- There are twice as many slots as entries, but for the latest one, or as many as there may
  be. -/
  load : slots = most ∨ 2 * (count - 1) ≤ slots

namespace Sized

variable {first most peak slots count : Nat}

/-- A table without entries. -/
theorem start (hfirst : first.isPowerOfTwo) (hle : first ≤ most) (peak : Nat) :
    Sized first most peak first 0 where
  power := hfirst
  doublings := ⟨0, (Nat.mul_one first).symm⟩
  first_le := Nat.le_refl _
  le_most := hle
  occupied := Nat.zero_le _
  peaked := Nat.le_max_left _ _
  load := .inr (Nat.zero_le _)

/-- Fewer entries in the same slots. -/
theorem keep (h : Sized first most peak slots count) {peak' count' : Nat} (hpeak : peak ≤ peak')
    (hcount : count' ≤ count) : Sized first most peak' slots count' where
  power := h.power
  doublings := h.doublings
  first_le := h.first_le
  le_most := h.le_most
  occupied := Nat.le_trans hcount h.occupied
  peaked := by
    have hpeaked := h.peaked
    omega
  load := h.load.imp_right fun hload => by omega

/-- One more entry in the same slots, of which fewer than half were occupied, or which are as many
as there may be. -/
theorem add (h : Sized first most peak slots count) {peak' : Nat} (hpeak : peak ≤ peak')
    (hroom : count < slots) (hload : slots = most ∨ 2 * count ≤ slots) :
    Sized first most peak' slots (count + 1) :=
  { h.keep hpeak (Nat.le_refl _) with
    occupied := hroom
    load := by rwa [Nat.add_sub_cancel] }

/-- One more entry in twice as many slots, of which half are occupied at least. -/
theorem double (h : Sized first most peak slots count) {peak' : Nat} (hpeak : count + 1 ≤ peak')
    (hhalf : slots ≤ count * 2) (hmost : slots * 2 ≤ most) (hroom : count < slots * 2) :
    Sized first most peak' (slots * 2) (count + 1) where
  power := Nat.isPowerOfTwo_mul_two_of_isPowerOfTwo h.power
  doublings := by
    obtain ⟨k, hk⟩ := h.doublings
    exact ⟨k + 1, by rw [hk, Nat.mul_assoc]; rfl⟩
  first_le := by
    have hfirst := h.first_le
    omega
  le_most := hmost
  occupied := hroom
  peaked := by omega
  load := by
    have hoccupied := h.occupied
    omega

end Sized

/-! ## Ledgers -/

namespace Ledger

variable {l : Ledger V} {first before : Nat}

/-- An operation leaves the number of slots alone and adds no binding, or else it enrolls an entry:
it adds a binding, to as many slots as there are then. -/
theorem apply_slots (l : Ledger V) (op : Operation V) :
    ((l.apply op).2.slots = l.slots ∧ (l.apply op).2.records.length ≤ l.records.length) ∨
      ∃ e c, op = .enroll e ∧ (l.apply op).1 = .enrolled c ∧ (l.apply op).2.slots = l.grownSlots ∧
        (l.apply op).2.records.length = l.records.length + 1 ∧
        l.records.length < l.grownSlots := by
  cases op with
  | enroll e =>
    rw [apply, enroll]
    split_ifs with hname hfull
    · exact .inl ⟨rfl, Nat.le_refl _⟩
    · exact .inl ⟨rfl, Nat.le_refl _⟩
    · rw [Bool.not_eq_true, Option.isSome_eq_false_iff, Option.isNone_iff_eq_none] at hname
      have hperm := Directory.insert_perm l.grown.last_lt_nextCookie hname
      exact .inr ⟨e, _, rfl, rfl, rfl, hperm.length_eq, Nat.not_le.1 hfull⟩
  | remove c => exact .inl ⟨rfl, List.length_filter_le _ _⟩
  | drain => exact .inl ⟨rfl, List.length_filter_le _ _⟩
  | set c v => exact .inl ⟨rfl, Nat.le_of_eq (List.length_map _)⟩
  | _ => exact .inl ⟨rfl, Nat.le_refl _⟩

/-- The number of slots stays as it is, or an entry is enrolled and it doubles. -/
theorem slots_apply (l : Ledger V) (op : Operation V) :
    (l.apply op).2.slots = l.slots ∨ ((l.apply op).2.slots = l.slots * 2 ∧
      ∃ e c, op = .enroll e ∧ (l.apply op).1 = .enrolled c) := by
  rcases l.apply_slots op with ⟨hslots, -⟩ | ⟨e, c, hop, hanswer, hslots, -⟩
  · exact .inl hslots
  · rw [grownSlots] at hslots
    split_ifs at hslots
    · exact .inr ⟨hslots, e, c, hop, hanswer⟩
    · exact .inl hslots

/-- An operation goes on with slots enough and not too many. -/
theorem apply_sized (h : Sized first l.limit before l.slots l.records.length)
    (hlimit : l.limit.isPowerOfTwo) (op : Operation V) :
    Sized first l.limit (max before (l.apply op).2.records.length) (l.apply op).2.slots
      (l.apply op).2.records.length := by
  rcases l.apply_slots op with ⟨hslots, hcount⟩ | ⟨e, c, -, -, hslots, hcount, hroom⟩
  · rw [hslots]
    exact h.keep (Nat.le_max_left _ _) hcount
  · rw [hslots, hcount]
    rw [grownSlots] at hroom ⊢
    split_ifs at hroom ⊢ with hgrow
    · exact h.double (Nat.le_max_right _ _) hgrow.1 hgrow.2 hroom
    · -- If half of the slots are occupied, they are as many as there may be.
      refine h.add (Nat.le_max_left _ _) hroom ?_
      rcases Nat.lt_or_ge (l.records.length * 2) l.slots with hless | hhalf
      · exact .inr (by omega)
      · exact .inl (eq_of_isPowerOfTwo h.power hlimit h.le_most (by omega))

/-- The largest number of bindings before, between and after some operations. -/
def peak (l : Ledger V) : List (Operation V) → Nat
  | [] => l.records.length
  | op :: ops => max l.records.length ((l.apply op).2.peak ops)

theorem length_le_peak (l : Ledger V) (ops : List (Operation V)) :
    l.records.length ≤ l.peak ops := by
  cases ops with
  | nil => exact Nat.le_refl _
  | cons op ops => exact Nat.le_max_left _ _

/-- A run goes on with slots enough and not too many. -/
theorem run_sized (h : Sized first l.limit before l.slots l.records.length)
    (hlimit : l.limit.isPowerOfTwo) (ops : List (Operation V)) :
    Sized first l.limit (max before (l.peak ops)) (l.run ops).2.slots
      (l.run ops).2.records.length := by
  -- By induction on the operations, from whatever ledger the ones before have left.
  induction ops generalizing l before with
  | nil => exact h.keep (Nat.le_max_left _ _) (Nat.le_refl _)
  | cons op ops ih =>
    have hstep := apply_sized h hlimit op
    rw [← limit_apply l op] at hstep hlimit ⊢
    have hpeak := (l.apply op).2.length_le_peak ops
    refine (ih hstep hlimit).keep ?_ (Nat.le_refl _)
    rw [peak]
    omega

end Ledger

/-! ## Indexes -/

namespace Index

/-- The largest number of entries before, between and after some operations. -/
def peak [LevelSource G] (ix : Index G V) : List (Operation V) → Except Fault Nat
  | [] => .ok ix.count
  | op :: ops => do
    let (_, ix') ← ix.apply op
    return max ix.count (← ix'.peak ops)

/-- An index has had as many entries as its ledger has had bindings. -/
theorem Keeps.peak_eq [LevelSource G] {ix : Index G V} {ns : List (Node V)} {l : Ledger V}
    (h : ix.Keeps ns l) {ops : List (Operation V)} (hops : ∀ op ∈ ops, op.Unlinked)
    (hmeans : ix.AffordsAll ops) : ix.peak ops = .ok (l.peak ops) := by
  induction ops generalizing ix ns l with
  | nil => exact congrArg Except.ok h.count_eq
  | cons op ops ih =>
    rw [List.forall_mem_cons] at hops
    obtain ⟨ix', ns', happly, h'⟩ := h.exists_apply hops.1 hmeans.1
    rw [peak, happly, ok_bind]
    dsimp only
    rw [ih h' hops.2 (hmeans.2 _ _ happly), h.count_eq]
    rfl

/-- The table of an index that has carried out any operations since it was made has as many slots as
the largest number of entries so far asks for. The next operation leaves their number as it is or
doubles it, which only an enrolment does that gives out a cookie. -/
theorem capacity_tracks_peak [LevelSource G] {config : Config} {entropy : UInt64} {ix₀ : Index G V}
    (hcreate : create config entropy = .ok ix₀) {ops : List (Operation V)}
    (hops : ∀ op ∈ ops, op.Unlinked) (hmeans : ix₀.AffordsAll ops) :
    IsLeast {p : Nat | p.isPowerOfTwo ∧ config.initialCapacity ≤ p} config.firstSlots ∧
      IsLeast {p : Nat | p.isPowerOfTwo ∧ config.maxCapacity ≤ p ∧ config.firstSlots ≤ p}
        config.mostSlots ∧
      ∃ answers ix peak, ix₀.run ops = .ok (answers, ix) ∧ ix₀.peak ops = .ok peak ∧
        Sized config.firstSlots config.mostSlots peak ix.capacity ix.count ∧
        ∀ op : Operation V, op.Unlinked → ix.Affords op →
          ∃ answer ix', ix.apply op = .ok (answer, ix') ∧
            (ix'.capacity = ix.capacity ∨ (ix'.capacity = ix.capacity * 2 ∧
              ∃ e c, op = .enroll e ∧ answer = .enrolled c)) := by
  have hnew := (new_of_create hcreate).keeps
  obtain ⟨ix, ns, hrun, h⟩ := hnew.exists_run hops hmeans
  have hfirst := config.isLeast_firstSlots
  have hmost := config.isLeast_mostSlots
  have hsized := Ledger.run_sized (l := (.empty config.firstSlots config.mostSlots : Ledger V))
    (.start hfirst.1.1 hmost.1.2.2 0) hmost.1.1 ops
  rw [Nat.zero_max, h.slots, ← h.count_eq] at hsized
  refine ⟨hfirst, hmost, _, ix, _, hrun, hnew.peak_eq hops hmeans, hsized,
    fun op hop haffords => ?_⟩
  obtain ⟨ix', ns', happly, h'⟩ := h.exists_apply hop haffords
  refine ⟨_, ix', happly, ?_⟩
  rw [← h.slots, ← h'.slots]
  exact Ledger.slots_apply _ op

/-- The second entry doubles a table of two slots. There would be room for eight, but as there have
been two entries at most, four are enough. -/
theorem capacity_tracks_peak_small :
    ∃ ix₀ : Index ChaCha Nat, create ⟨2, 8, some 0⟩ 0 = .ok ix₀ ∧ ∃ answers ix, ix₀.run
      [.enroll ⟨[98], 7, .null, [], .null⟩, .enroll ⟨[97], 8, .null, [], .null⟩, .remove ⟨1⟩] =
        .ok (answers, ix) ∧ ix.capacity ≤ 4 := by
  generalize hops : ([.enroll ⟨[98], 7, .null, [], .null⟩, .enroll ⟨[97], 8, .null, [], .null⟩,
    .remove ⟨1⟩] : List (Operation Nat)) = ops
  have hunlinked : ∀ op ∈ ops, op.Unlinked := by
    intro op hop
    rw [← hops] at hop
    simp only [List.mem_cons, List.not_mem_nil, or_false] at hop
    rcases hop with rfl | rfl | rfl
    · exact rfl
    · exact rfl
    · trivial
  have hfits : Config.Fits ⟨2, 8, some 0⟩ := ⟨by decide, by decide, by decide⟩
  obtain ⟨ix₀, hcreate, hnew⟩ := exists_create (G := ChaCha) (V := Nat) hfits 0
  have hgood : ix₀.GoodFor ops.length := by
    rw [← hops]
    exact hnew.goodFor (by decide) (by decide)
  have hmeans := hnew.keeps.affordsAll_of_goodFor hunlinked hgood
  have hpeak : ix₀.peak ops = .ok 2 := by
    rw [hnew.keeps.peak_eq hunlinked hmeans, ← hops]
    decide +kernel
  obtain ⟨-, -, answers, ix, peak, hrun, hpeak', hsized, -⟩ :=
    capacity_tracks_peak hcreate hunlinked hmeans
  rw [hpeak] at hpeak'
  cases hpeak'
  exact ⟨ix₀, hcreate, answers, ix, hrun, hsized.peaked⟩

end Index

end NameIndex
