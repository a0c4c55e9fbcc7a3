import NameIndex.Proofs.Allocate
import NameIndex.Proofs.Cursor
import NameIndex.Proofs.Directory

/-!
# Ledgers

A ledger is a directory that also counts its slots. The number of slots settles the one thing that a
directory leaves open, the cookie of a new binding: it is the first one not yet spent whose slot is
free (`Ledger.nextCookie_eq`). So a ledger answers every operation by a function, `Ledger.apply`, in
which neither levels nor links occur.
-/

namespace NameIndex

/-- A directory of which the number of slots is known. -/
structure Ledger (V : Type) extends Directory V where
  /-- The number of slots. -/
  slots : Nat

namespace Ledger

variable {V : Type}

/-- The ledger without bindings. -/
def empty (slots limit : Nat) : Ledger V := ⟨.empty limit, slots⟩

variable (l : Ledger V)

/-! ## Cookies to come -/

/-- Whether no cookie that is bound belongs in the slot of a cookie. -/
def isFree (c : Cookie) : Bool := l.records.all fun r => r.cookie.val % l.slots ≠ c.val % l.slots

/-- The number of slots after a new binding has asked for more, which it does when half of them are
taken. -/
def grownSlots : Nat :=
  if l.slots ≤ l.records.length * 2 ∧ l.slots * 2 ≤ l.limit then l.slots * 2 else l.slots

/-- The ledger with that many slots. -/
def grown : Ledger V := { l with slots := l.grownSlots }

/-- The first cookie not yet spent whose slot is free. -/
def nextCookie : Cookie :=
  ⟨l.last + 1 + (List.range l.slots).findIdx fun k => l.isFree ⟨l.last + 1 + k⟩⟩

variable {l}

theorem isFree_iff {c : Cookie} :
    l.isFree c = true ↔ ∀ d ∈ l.records.map Record.cookie, d.val % l.slots ≠ c.val % l.slots := by
  rw [isFree, List.all_eq_true, List.forall_mem_map]
  simp only [decide_eq_true_eq]

/-- The next cookie has not been spent. -/
theorem last_lt_nextCookie (l : Ledger V) : l.last < l.nextCookie.val := by
  rw [nextCookie]
  dsimp only
  omega

/-- The next cookie is not far away. -/
theorem nextCookie_le (l : Ledger V) : l.nextCookie.val ≤ l.last + l.slots + 1 := by
  have hfind : (List.range l.slots).findIdx (fun k => l.isFree ⟨l.last + 1 + k⟩) ≤
      (List.range l.slots).length := List.findIdx_le_length
  rw [List.length_range] at hfind
  rw [nextCookie]
  dsimp only
  omega

/-- The next cookie is the first one whose slot is free. -/
theorem nextCookie_eq {c : Cookie}
    (h : FirstFree (l.records.map Record.cookie) l.slots l.last c) : l.nextCookie = c := by
  obtain ⟨hafter, -, hnear, hfree, hleast⟩ := h
  have hlt : c.val - (l.last + 1) < (List.range l.slots).length := by
    rw [List.length_range]
    omega
  have hcookie : (⟨l.last + 1 + (c.val - (l.last + 1))⟩ : Cookie) = c := by
    rw [show l.last + 1 + (c.val - (l.last + 1)) = c.val by omega]
  have hfind : (List.range l.slots).findIdx (fun k => l.isFree ⟨l.last + 1 + k⟩) =
      c.val - (l.last + 1) := by
    rw [List.findIdx_eq hlt]
    refine ⟨?_, fun k hk => ?_⟩
    · rw [List.getElem_range, hcookie]
      exact isFree_iff.2 hfree
    · -- A cookie before it shares its slot with one that is bound.
      rw [List.getElem_range, Bool.eq_false_iff]
      intro hbusy
      obtain ⟨d, hd, hslot⟩ := hleast (l.last + 1 + k) (by omega) (by omega)
      exact isFree_iff.1 hbusy d hd hslot
  rw [nextCookie, hfind, hcookie]

variable (l)

/-! ## Answers -/

/-- The bindings of names not before a name. -/
def notBefore (name : Name) : List (Record V) := l.records.filter fun r => ¬ r.name < name

/-- The bindings of names not after a name. -/
def notAfter (name : Name) : List (Record V) := l.records.filter fun r => ¬ name < r.name

/-- All bindings, or those of names not before a name. -/
def since : Option Name → List (Record V)
  | none => l.records
  | some name => l.notBefore name

/-- The binding that follows that of a cookie in some list of bindings. -/
def following (c : Cookie) (records : List (Record V)) : Option (Record V) :=
  (records.dropWhile fun r => r.cookie ≠ c).tail.head?

variable {l}

theorem following_append {r : Record V} {before : List (Record V)}
    (h : ∀ s ∈ before, s.cookie ≠ r.cookie) (after : List (Record V)) :
    following r.cookie (before ++ r :: after) = after.head? := by
  have hskip : ∀ s ∈ before, decide (s.cookie ≠ r.cookie) = true := fun s hs =>
    decide_eq_true (h s hs)
  have hstop : (r :: after).dropWhile (fun s => decide (s.cookie ≠ r.cookie)) = r :: after :=
    List.dropWhile_cons_of_neg (by simp)
  rw [following, List.dropWhile_append_of_pos hskip, hstop, List.tail_cons]

theorem following_none {c : Cookie} {records : List (Record V)}
    (h : ∀ r ∈ records, r.cookie ≠ c) : following c records = none := by
  have hnil : (records.dropWhile fun r => decide (r.cookie ≠ c)) = [] :=
    List.dropWhile_eq_nil_iff.2 fun r hr => decide_eq_true (h r hr)
  rw [following, hnil]
  rfl

variable (l)

/-- What becomes of an entry to be enrolled. -/
def enroll (e : Entry V) : Answer V × Ledger V :=
  if (l.find? e.name).isSome then (.refused ⟨.duplicateKey, e⟩, l)
  else if l.grownSlots ≤ l.records.length then
    (.refused ⟨.cookieCollision ⟨l.last + 1⟩ ((l.last + 1) % l.slots), e⟩,
      ⟨l.spend ⟨l.last + 1⟩ (Nat.lt_succ_self _), l.slots⟩)
  else
    (.enrolled l.grown.nextCookie,
      ⟨l.insert e l.grown.nextCookie l.grown.last_lt_nextCookie, l.grownSlots⟩)

/-- The answer to an operation, and the ledger after it. -/
def apply : Operation V → Answer V × Ledger V
  | .enroll e => l.enroll e
  | .remove c => (.owned ((l.get? c).map Record.unlinked), ⟨l.erase c, l.slots⟩)
  | .drain => (.drained (l.records.map Record.unlinked), ⟨l.clear, l.slots⟩)
  | .get c => (.record (l.get? c), l)
  | .contains c => (.truth (l.get? c).isSome, l)
  | .set c v => (.value ((l.get? c).map (·.value)), ⟨l.setValue c v, l.slots⟩)
  | .first => (.record l.records.head?, l)
  | .last => (.record l.records.getLast?, l)
  | .next c => (.record (following c l.records), l)
  | .prev c => (.record (following c l.records.reverse), l)
  | .lookup name => (.record (l.find? name), l)
  | .seek name => (.record (l.notBefore name).head?, l)
  | .floor name => (.record (l.notAfter name).getLast?, l)
  | .list start side => (.records (side.order (l.since start)), l)
  | .pop start sides => (.popped (Side.take sides (l.since start)).1, l)
  | .startingWith stem =>
    (.records ((l.notBefore stem).takeWhile fun r => stem.isPrefixOf r.name), l)
  | .check => (.number l.records.length, l)
  | .length => (.number l.records.length, l)
  | .isEmpty => (.truth l.records.isEmpty, l)
  | .capacity => (.number l.slots, l)

/-- The three outcomes of an enrolment. -/
theorem enroll_cases (l : Ledger V) (e : Entry V) :
    l.enroll e = (.refused ⟨.duplicateKey, e⟩, l) ∨
      (∃ c slot, ∃ hc : l.last < c.val,
        l.enroll e = (.refused ⟨.cookieCollision c slot, e⟩, ⟨l.spend c hc, l.slots⟩)) ∨
      ∃ c slots, ∃ hc : l.last < c.val, l.find? e.name = none ∧
        l.enroll e = (.enrolled c, ⟨l.insert e c hc, slots⟩) := by
  rw [enroll]
  split_ifs with hname hfull
  · exact .inl rfl
  · exact .inr (.inl ⟨_, _, Nat.lt_succ_self _, rfl⟩)
  · rw [Bool.not_eq_true, Option.isSome_eq_false_iff, Option.isNone_iff_eq_none] at hname
    exact .inr (.inr ⟨_, _, l.grown.last_lt_nextCookie, hname, rfl⟩)

theorem limit_apply (l : Ledger V) (op : Operation V) : (l.apply op).2.limit = l.limit := by
  cases op with
  | enroll e =>
    rw [apply, enroll]
    split_ifs <;> rfl
  | _ => rfl

/-- An operation spends no more cookies than there are slots when it is done, and one more. -/
theorem last_apply_le (l : Ledger V) (op : Operation V) :
    (l.apply op).2.last ≤ l.last + l.grownSlots + 1 := by
  cases op with
  | enroll e =>
    rw [apply, enroll]
    split_ifs
    · exact Nat.le_succ_of_le (Nat.le_add_right _ _)
    · exact Nat.succ_le_succ (Nat.le_add_right _ _)
    · exact l.grown.nextCookie_le
  | _ => exact Nat.le_succ_of_le (Nat.le_add_right _ _)

/-- The answers to operations in turn, and the ledger after them. -/
def run (l : Ledger V) : List (Operation V) → List (Answer V) × Ledger V
  | [] => ([], l)
  | op :: ops => ((l.apply op).1 :: ((l.apply op).2.run ops).1, ((l.apply op).2.run ops).2)

/-- A run answers every operation. -/
theorem length_run (l : Ledger V) (ops : List (Operation V)) :
    (l.run ops).1.length = ops.length := by
  induction ops generalizing l with
  | nil => rfl
  | cons op ops ih => exact congrArg (· + 1) (ih _)

end Ledger

end NameIndex
