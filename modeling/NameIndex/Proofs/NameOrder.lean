import NameIndex.Entry

/-!
# The order of names

Names are ordered as lists of bytes, which is a strict and total order. The names that begin with a
stem stand together in it, from the stem itself on (`isPrefix_of_between`).
-/

namespace NameIndex.Name

/-- Two names of which neither comes before the other are the same. -/
theorem eq_of_not_lt {a b : Name} (hab : ¬ a < b) (hba : ¬ b < a) : a = b :=
  List.le_antisymm (List.not_lt.1 hba) (List.not_lt.1 hab)

/-- A name that comes before another is not the other. -/
theorem ne_of_lt {a b : Name} (h : a < b) : a ≠ b := by
  rintro rfl
  exact List.lt_irrefl a h

/-- A name that is not after another is not after any name that the other is not after. -/
theorem not_lt_trans {a b c : Name} (hab : ¬ b < a) (hbc : ¬ c < b) : ¬ c < a :=
  List.not_lt.2 (List.le_trans (List.not_lt.1 hab) (List.not_lt.1 hbc))

/-- Of two names one is not after the other. -/
theorem not_lt_total (a b : Name) : ¬ b < a ∨ ¬ a < b := by
  by_cases hba : b < a
  · exact .inr (List.lt_asymm hba)
  · exact .inl hba

/-- A name that begins with a stem is not before it. -/
theorem not_lt_of_isPrefix {stem name : Name} (h : stem <+: name) : ¬ name < stem :=
  List.not_lt.2 h.le

/-- A name between a stem and one that begins with the stem begins with it too. -/
theorem isPrefix_of_between {stem a b : Name} (hstem : ¬ a < stem) (hab : a < b)
    (hb : stem <+: b) : stem <+: a := by
  -- By induction on the stem; its first byte is that of the names on both sides of the one between.
  induction stem generalizing a b with
  | nil => exact List.nil_prefix
  | cons s stem ih =>
    obtain ⟨rest, rfl⟩ := hb
    cases a with
    | nil => exact absurd (List.nil_lt_cons s stem) hstem
    | cons x a =>
      rw [List.cons_lt_cons_iff, not_or, not_and] at hstem
      rw [List.cons_append, List.cons_lt_cons_iff] at hab
      obtain ⟨rfl, hlt⟩ := hab.resolve_left hstem.1
      rw [List.cons_prefix_cons]
      exact ⟨rfl, ih (hstem.2 rfl) hlt (List.prefix_append stem rest)⟩

end NameIndex.Name
