import NameIndex.Fault

/-!
# Outcomes of steps

The operations of an index are steps in `Except Fault`, one after another. A sequence of steps
succeeds when each of them does (`bind_eq_ok_iff`), and a loop over a list succeeds when it does at
every item. `Sound` says of a step that it stops only for a contradiction that it looked for:
reading out of range, counting below zero and walking for ever are excluded.
-/

namespace NameIndex

variable {α β ε : Type}

@[simp] theorem ok_bind (a : α) (f : α → Except ε β) : (Except.ok a >>= f) = f a := rfl

@[simp] theorem error_bind (e : ε) (f : α → Except ε β) :
    ((Except.error e : Except ε α) >>= f) = .error e := rfl

@[simp] theorem pure_eq_ok (a : α) : (pure a : Except ε α) = .ok a := rfl

@[simp] theorem map_ok (f : α → β) (a : α) : (f <$> (Except.ok a : Except ε α)) = .ok (f a) := rfl

/-- Two steps in turn succeed when the first gives a result and the second succeeds on it. -/
theorem bind_eq_ok_iff {x : Except ε α} {f : α → Except ε β} {b : β} :
    (x >>= f) = .ok b ↔ ∃ a, x = .ok a ∧ f a = .ok b := by
  cases x with
  | error e => simp
  | ok a => simp

/-- Two steps in turn stop when the first does, or the second does after it. -/
theorem bind_eq_error_iff {x : Except ε α} {f : α → Except ε β} {e : ε} :
    (x >>= f) = .error e ↔ x = .error e ∨ ∃ a, x = .ok a ∧ f a = .error e := by
  cases x with
  | error e' => simp
  | ok a => simp

/-- A part of a result is got when the result is. -/
theorem map_eq_ok_iff {x : Except ε α} {f : α → β} {b : β} :
    x.map f = .ok b ↔ ∃ a, x = .ok a ∧ f a = b := by
  cases x with
  | error e => simp [Except.map]
  | ok a => simp [Except.map]

/-- A part of a result is not got when the result is not. -/
theorem map_eq_error_iff {x : Except ε α} {f : α → β} {e : ε} :
    x.map f = .error e ↔ x = .error e := by
  cases x with
  | error e => simp [Except.map]
  | ok a => simp [Except.map]

/-- An expectation that holds lets the steps after it go on. -/
theorem expect_pos {p : Prop} [Decidable p] (h : p) (w : Corruption) :
    expect (decide p) w = .ok () := by
  simp [expect, h]

/-- An expectation that lets the steps after it go on holds. -/
theorem expect_eq_ok_iff {p : Prop} [Decidable p] {w : Corruption} {u : Unit} :
    expect (decide p) w = .ok u ↔ p := by
  by_cases h : p
  · simp [expect, h]
  · simp [expect, h]

/-- A loop that gives `g x` at every item `x` gives the list of them. -/
theorem mapM_eq_ok {f : α → Except ε β} {g : α → β} {xs : List α} (h : ∀ x ∈ xs, f x = .ok (g x)) :
    xs.mapM f = .ok (xs.map g) := by
  induction xs with
  | nil => rfl
  | cons x xs ih =>
    rw [List.mapM_cons, h x (by simp), ih fun y hy => h y (by simp [hy])]
    rfl

/-- A loop of checks passes when it does at every item. -/
theorem forM_eq_ok_iff {f : α → Except ε Unit} {xs : List α} :
    xs.forM f = .ok () ↔ ∀ x ∈ xs, f x = .ok () := by
  induction xs with
  | nil => simp [List.forM]
  | cons x xs ih =>
    change (f x >>= fun _ => xs.forM f) = .ok () ↔ _
    rw [bind_eq_ok_iff, List.forall_mem_cons, ih]
    exact ⟨fun ⟨_, hx, hxs⟩ => ⟨hx, hxs⟩, fun ⟨hx, hxs⟩ => ⟨(), hx, hxs⟩⟩

/-! ## Stopping only for a contradiction -/

/-- The step gives a result or stops with a contradiction between the parts of the index. -/
def Sound (x : Except Fault α) : Prop := ∀ f, x = .error f → ∃ w, f = .corrupt w

namespace Sound

/-- A step that gives a result is sound. -/
theorem ok (a : α) : Sound (.ok a : Except Fault α) := fun _ h => nomatch h

/-- A step that stops with a contradiction is sound. -/
theorem corrupt (w : Corruption) : Sound (.error (.corrupt w) : Except Fault α) := by
  intro f h
  exact ⟨w, (Except.error.inj h).symm⟩

/-- An expectation is sound. -/
theorem expect (holds : Bool) (w : Corruption) : Sound (NameIndex.expect holds w) := by
  cases holds with
  | false => exact corrupt w
  | true => exact ok ()

/-- Two steps in turn are sound if the first is, and the second is on what the first gives. -/
theorem bind {x : Except Fault α} {f : α → Except Fault β} (hx : Sound x)
    (hf : ∀ a, x = .ok a → Sound (f a)) : Sound (x >>= f) := by
  cases x with
  | error e =>
    obtain ⟨w, rfl⟩ := hx e rfl
    exact corrupt w
  | ok a => exact hf a rfl

/-- A loop that is sound at every item is sound. -/
theorem forM {f : α → Except Fault Unit} {xs : List α} (h : ∀ x ∈ xs, Sound (f x)) :
    Sound (xs.forM f) := by
  induction xs with
  | nil => exact ok ()
  | cons x xs ih =>
    exact (h x (by simp)).bind fun _ _ => ih fun y hy => h y (by simp [hy])

/-- A sound step that gives no result stops with a contradiction. -/
theorem exists_corrupt {x : Except Fault α} (h : Sound x) (hx : ∀ a, x ≠ .ok a) :
    ∃ w, x = .error (.corrupt w) := by
  cases x with
  | error f =>
    obtain ⟨w, rfl⟩ := h f rfl
    exact ⟨w, rfl⟩
  | ok a => exact absurd rfl (hx a)

end Sound

/-- The step stops with a contradiction between the parts of the index. -/
def Stops (x : Except Fault α) : Prop := ∃ w, x = .error (.corrupt w)

namespace Stops

theorem corrupt (w : Corruption) : Stops (.error (.corrupt w) : Except Fault α) := ⟨w, rfl⟩

/-- An expectation that does not hold stops. -/
theorem expect {p : Prop} [Decidable p] (h : ¬ p) (w : Corruption) :
    Stops (NameIndex.expect (decide p) w) := by
  rw [decide_eq_false h]
  exact corrupt w

/-- Steps of which the first stops, stop. -/
theorem bind {x : Except Fault α} (hx : Stops x) (f : α → Except Fault β) : Stops (x >>= f) := by
  obtain ⟨w, rfl⟩ := hx
  exact corrupt w

end Stops

/-- Two steps in turn stop if the first is sound and the second stops on what the first gives. -/
theorem Sound.stops_bind {x : Except Fault α} {f : α → Except Fault β} (hx : Sound x)
    (hf : ∀ a, x = .ok a → Stops (f a)) : Stops (x >>= f) := by
  cases x with
  | error e =>
    obtain ⟨w, rfl⟩ := hx e rfl
    exact .corrupt w
  | ok a => exact hf a rfl

end NameIndex
