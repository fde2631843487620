import Mathlib

/-! # Prefixes in the lexicographic order of lists

    A prefix of a list is never above it, and a non-empty prefix is never
    below the list's first element alone.  So every non-empty prefix of
    `l` lies in the interval `[l.take 1, l]`, which lets an ordered map find
    all prefixes of a key by one range scan; the empty list lies below that
    interval whenever `l` is not empty. -/

namespace ListLex

variable {β : Type} [LinearOrder β]

/-- A prefix is never above the list. -/
theorem not_lt_of_prefix {p l : List β} (h : p <+: l) : ¬ l < p := by
  obtain ⟨t, rfl⟩ := h
  induction p with
  | nil => exact List.not_lt_nil _
  | cons a p ih =>
      intro hlt
      rw [List.cons_append, List.cons_lt_cons_iff] at hlt
      rcases hlt with hlt | ⟨-, hlt⟩
      · exact lt_irrefl a hlt
      · exact ih hlt

/-- A non-empty prefix is never below the first element of the list. -/
theorem not_lt_take_one_of_prefix {p l : List β} (hp : p ≠ []) (h : p <+: l) :
    ¬ p < l.take 1 := by
  obtain ⟨t, rfl⟩ := h
  cases p with
  | nil => exact absurd rfl hp
  | cons a p =>
      intro hlt
      rw [List.cons_append, List.take_succ_cons, List.take_zero, List.cons_lt_cons_iff] at hlt
      rcases hlt with hlt | ⟨-, hlt⟩
      · exact lt_irrefl a hlt
      · exact List.not_lt_nil _ hlt

/-- The empty list lies below the first element of a non-empty list. -/
theorem nil_lt_take_one {l : List β} (hl : l ≠ []) : [] < l.take 1 := by
  cases l with
  | nil => exact absurd rfl hl
  | cons a l => exact List.nil_lt_cons a []

end ListLex
