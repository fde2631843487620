import Mathlib

/-! # Summing into a 32-bit accumulator

    `std::accumulate(first, last, 0)` takes the type of its accumulator from
    the initial value: with the literal `0` that is `int`.  Each step adds the
    next element in the wider type and narrows the result back to `int`,
    which keeps it modulo `2^32` in the signed range.  A caller that then
    returns the `int` as a `uint64_t` sign-extends it.

    `accumulate32` is that fold over natural-number elements.  Its value is
    the balanced residue of the true sum modulo `Int32.size = 2^32`
    (`toInt_accumulate32`); read back as
    a 64-bit unsigned value it is the true sum exactly when the sum is below
    `2^31` (`toNat_ofInt_accumulate32_eq_sum_iff`).  Nothing here names a
    particular program. -/

namespace NarrowAccumulate

/-- The fold `std::accumulate` runs with an `int` accumulator. -/
def accumulate32 (init : Int32) (xs : List Nat) : Int32 :=
  xs.foldl (fun (acc : Int32) (x : Nat) => Int32.ofInt (acc.toInt + x)) init

@[simp] theorem accumulate32_nil (init : Int32) : accumulate32 init [] = init := rfl

theorem accumulate32_cons (init : Int32) (x : Nat) (xs : List Nat) :
    accumulate32 init (x :: xs) = accumulate32 (Int32.ofInt (init.toInt + x)) xs := rfl

/-- **THE NARROWED SUM**: the accumulator ends at the balanced residue of
    the true sum modulo `2^32`. -/
theorem toInt_accumulate32 (init : Int32) (xs : List Nat) :
    (accumulate32 init xs).toInt = (init.toInt + (xs.sum : Int)).bmod Int32.size := by
  induction xs generalizing init with
  | nil =>
      rw [accumulate32_nil, List.sum_nil, Nat.cast_zero, Int.add_zero]
      exact init.toInt_bmod.symm
  | cons x xs ih =>
      rw [accumulate32_cons, ih, Int32.toInt_ofInt, Int.bmod_add_bmod, List.sum_cons,
        Nat.cast_add, Int.add_assoc]

/-- Below `2^31` nothing is lost. -/
theorem toInt_accumulate32_of_lt {xs : List Nat} (h : xs.sum < 2 ^ 31) :
    (accumulate32 0 xs).toInt = xs.sum := by
  rw [toInt_accumulate32, Int32.toInt_zero, Int.zero_add, Int.bmod_eq_emod]
  unfold Int32.size
  split <;> omega

/-- **EXACT ONLY BELOW 2^31**: for a sum that fits a signed 64-bit value, the
    accumulator, sign-extended to 64 bits, is the sum exactly when the sum is
    below `2^31`. -/
theorem toNat_ofInt_accumulate32_eq_sum_iff {xs : List Nat} (h : xs.sum < 2 ^ 63) :
    (UInt64.ofInt (accumulate32 0 xs).toInt).toNat = xs.sum ↔ xs.sum < 2 ^ 31 := by
  rw [toInt_accumulate32, Int32.toInt_zero, Int.zero_add, UInt64.ofInt, UInt64.toNat_ofNat',
    Int.bmod_eq_emod]
  unfold Int32.size
  -- the residue is the sum modulo `2^32`, shifted down by `2^32` in the upper half
  split
  · constructor
    · intro heq
      omega
    · intro hlt
      omega
  · constructor
    · intro heq
      omega
    · intro hlt
      omega

end NarrowAccumulate
