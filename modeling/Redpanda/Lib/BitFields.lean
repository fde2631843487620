import Mathlib

/-! # Bit fields of natural numbers

    The arithmetic of packing numbers into bit fields and getting them back,
    over `Nat` bit patterns:

    * a disjoint `|||` is an addition (`or_shiftLeft_eq_add`), and the low
      `s + t` bits are the low `s` bits plus the next `t` shifted up
      (`mod_two_pow_add`): putting fields back one word at a time rebuilds
      the number;
    * fields of `r` bits, least significant first, are the base-`2 ^ r`
      digits of the number they are packed into (`foldr_or_shiftLeft`), and
      shifting and masking picks each digit out again
      (`ofDigits_shiftRight_mod`). -/

namespace BitFields

/-- OR-ing a number below `2 ^ k` with one shifted up by `k` adds them. -/
theorem or_shiftLeft_eq_add {a k : Nat} (b : Nat) (ha : a < 2 ^ k) :
    a ||| b <<< k = a + b <<< k := by
  rw [Nat.lor_comm, ← Nat.shiftLeft_add_eq_or_of_lt ha, Nat.add_comm]

/-- The low `s + t` bits of `u` are its low `s` bits and, above them, the
    next `t`. -/
theorem mod_two_pow_add (u s t : Nat) :
    u % 2 ^ (s + t) = u % 2 ^ s + ((u >>> s) % 2 ^ t) <<< s := by
  rw [Nat.pow_add, Nat.mod_mul, Nat.shiftRight_eq_div_pow, Nat.shiftLeft_eq, Nat.mul_comm (2 ^ s)]

/-- A field shifted up by `n` and cut to `n + r` bits keeps its low `r`
    bits. -/
theorem shiftLeft_mod_two_pow_add (x n r : Nat) :
    (x <<< n) % 2 ^ (n + r) = (x % 2 ^ r) <<< n := by
  rw [Nat.shiftLeft_eq, Nat.shiftLeft_eq, Nat.pow_add, Nat.mul_comm (2 ^ n), Nat.mul_mod_mul_right]

/-- A field of `k` bits shifted up by `n` stays below `2 ^ (n + k)`. -/
theorem shiftLeft_lt_two_pow {x k : Nat} (n : Nat) (hx : x < 2 ^ k) : x <<< n < 2 ^ (n + k) := by
  rw [Nat.shiftLeft_eq, Nat.pow_add, Nat.mul_comm (2 ^ n)]
  exact Nat.mul_lt_mul_of_pos_right hx (Nat.two_pow_pos n)

/-- What fits in `k` bits after an OR fits before it, on either side. -/
theorem lt_two_pow_of_or_lt {a b k : Nat} (h : a ||| b < 2 ^ k) : a < 2 ^ k ∧ b < 2 ^ k :=
  ⟨Nat.lt_of_le_of_lt Nat.left_le_or h, Nat.lt_of_le_of_lt Nat.right_le_or h⟩

section Digits

variable {r : Nat}

/-- Shifting by `r * i` and keeping `r` bits reads the `i`-th digit of
    fields that each fit in `r` bits. -/
theorem ofDigits_shiftRight_mod :
    ∀ {fs : List Nat}, (∀ f ∈ fs, f < 2 ^ r) → ∀ (i : Nat) (hi : i < fs.length),
      (Nat.ofDigits (2 ^ r) fs >>> (r * i)) % 2 ^ r = fs[i]
  | [], _, i, hi => absurd hi (Nat.not_lt_zero i)
  | f :: fs, hfs, i, hi => by
      have hf : f < 2 ^ r := hfs f List.mem_cons_self
      have hdigits : Nat.ofDigits (2 ^ r) (f :: fs) = 2 ^ r * Nat.ofDigits (2 ^ r) fs + f := by
        rw [Nat.ofDigits_cons, Nat.add_comm]
      cases i with
      | zero =>
          rw [hdigits, Nat.mul_zero, Nat.shiftRight_zero, Nat.mul_add_mod, Nat.mod_eq_of_lt hf]
          rfl
      | succ i =>
          -- drop the lowest digit, then read digit `i` of the rest
          have hdrop : Nat.ofDigits (2 ^ r) (f :: fs) >>> r = Nat.ofDigits (2 ^ r) fs := by
            rw [hdigits, Nat.shiftRight_eq_div_pow, Nat.mul_add_div (Nat.two_pow_pos r),
              Nat.div_eq_of_lt hf, Nat.add_zero]
          rw [Nat.mul_succ, Nat.add_comm, Nat.shiftRight_add, hdrop]
          exact ofDigits_shiftRight_mod (fun g hg => hfs g (List.mem_cons_of_mem f hg)) i
            (Nat.lt_of_succ_lt_succ hi)

/-- OR-ing fields of `r` bits, the one at index `i` shifted by `r * i`,
    packs them as base-`2 ^ r` digits (here from index `j` on). -/
theorem foldr_or_shiftLeft :
    ∀ {fs : List Nat}, (∀ f ∈ fs, f < 2 ^ r) → ∀ j : Nat,
      ((fs.zipIdx j).map fun p => p.1 <<< (r * p.2)).foldr (· ||| ·) 0
        = Nat.ofDigits (2 ^ r) fs <<< (r * j)
  | [], _, j => by simp
  | f :: fs, hfs, j => by
      have hf : f < 2 ^ r := hfs f List.mem_cons_self
      have ih := foldr_or_shiftLeft (fun g hg => hfs g (List.mem_cons_of_mem f hg)) (j + 1)
      simp only [List.zipIdx_cons, List.map_cons, List.foldr_cons]
      rw [ih, Nat.mul_succ, Nat.add_comm (r * j), Nat.shiftLeft_add, ← Nat.shiftLeft_or_distrib,
        or_shiftLeft_eq_add _ hf, Nat.ofDigits_cons, Nat.shiftLeft_eq (Nat.ofDigits _ fs),
        Nat.mul_comm]

end Digits

end BitFields
