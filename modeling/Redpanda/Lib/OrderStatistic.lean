import Mathlib

/-! # Order statistics of a list

    The `k`-th smallest value of a list, counting from 0, is the value an
    ascending sort puts at position `k`; it is what `std::nth_element`
    leaves there.  Two counts describe it without the sort:

    * at least `length - k` values are at or above it
      (`length_sub_le_countP_kth`);
    * a strictly larger bound is met by at most `length - k - 1` values
      (`countP_add_le_of_kth_lt`).

    Both are read off the sorted list, whose prefix up to position `k` lies
    at or below the value there and whose suffix from `k` at or above it. -/

namespace OrderStatistic

variable {β : Type} [LinearOrder β]

/-- The `k`-th smallest value of `l`; `d` past its end. -/
def kth (l : List β) (k : Nat) (d : β) : β := (l.insertionSort (· ≤ ·)).getD k d

section Sorted

variable {s : List β} (hs : s.Pairwise (· ≤ ·)) {k : Nat} (hk : k < s.length)
include hs hk

/-- In a sorted list the values from position `k` on are at or above the
    value at `k`. -/
theorem le_of_mem_drop {y : β} (hy : y ∈ s.drop k) : s[k] ≤ y := by
  rw [List.drop_eq_getElem_cons hk, List.mem_cons] at hy
  rcases hy with rfl | hy
  · exact le_rfl
  · have hmem : s[k] ∈ s.take (k + 1) := by
      rw [List.take_add_one, List.getElem?_eq_getElem hk, Option.toList_some]
      exact List.mem_append_right _ (List.mem_singleton_self _)
    exact hs.rel_of_mem_take_of_mem_drop hmem hy

/-- In a sorted list the values up to position `k` are at or below the
    value at `k`. -/
theorem le_of_mem_take {x : β} (hx : x ∈ s.take (k + 1)) : x ≤ s[k] := by
  rw [List.take_add_one, List.getElem?_eq_getElem hk, List.mem_append] at hx
  rcases hx with hx | hx
  · have hmem : s[k] ∈ s.drop k := by
      rw [List.drop_eq_getElem_cons hk]
      exact List.mem_cons_self
    exact hs.rel_of_mem_take_of_mem_drop hx hmem
  · rw [Option.toList_some, List.mem_singleton] at hx
    rw [hx]

theorem length_sub_le_countP : s.length - k ≤ s.countP (fun y => s[k] ≤ y) := by
  have hdrop : (s.drop k).countP (fun y => s[k] ≤ y) = s.length - k := by
    rw [List.countP_eq_length.mpr fun y hy => by simpa using le_of_mem_drop hs hk hy,
      List.length_drop]
  have hsplit : s.countP (fun y => s[k] ≤ y) =
      (s.take k).countP (fun y => s[k] ≤ y) + (s.drop k).countP (fun y => s[k] ≤ y) := by
    rw [← List.countP_append, List.take_append_drop]
  omega

theorem countP_add_le_of_lt {w : β} (hw : s[k] < w) :
    s.countP (fun y => w ≤ y) + (k + 1) ≤ s.length := by
  -- nothing up to position `k` reaches `w`
  have htake : (s.take (k + 1)).countP (fun y => w ≤ y) = 0 :=
    List.countP_eq_zero.mpr fun x hx => by
      have hle := le_of_mem_take hs hk hx
      simpa using lt_of_le_of_lt hle hw
  have hdrop : (s.drop (k + 1)).countP (fun y => w ≤ y) ≤ s.length - (k + 1) := by
    have := List.countP_le_length (p := fun y => decide (w ≤ y)) (l := s.drop (k + 1))
    rwa [List.length_drop] at this
  have hsplit : s.countP (fun y => w ≤ y) =
      (s.take (k + 1)).countP (fun y => w ≤ y) + (s.drop (k + 1)).countP (fun y => w ≤ y) := by
    rw [← List.countP_append, List.take_append_drop]
  omega

end Sorted

variable {l : List β} {k : Nat} {d : β}

theorem kth_eq_getElem (hk : k < (l.insertionSort (· ≤ ·)).length) :
    kth l k d = (l.insertionSort (· ≤ ·))[k] := by
  unfold kth
  rw [List.getD_eq_getElem?_getD, List.getElem?_eq_getElem hk, Option.getD_some]

theorem kth_mem (hk : k < l.length) : kth l k d ∈ l := by
  have hperm := List.perm_insertionSort (· ≤ ·) l
  have hk' : k < (l.insertionSort (· ≤ ·)).length := by rwa [hperm.length_eq]
  rw [kth_eq_getElem hk']
  exact hperm.subset (List.getElem_mem hk')

/-- **AT LEAST `length - k` VALUES REACH THE `k`-TH**. -/
theorem length_sub_le_countP_kth (hk : k < l.length) :
    l.length - k ≤ l.countP (fun y => kth l k d ≤ y) := by
  have hperm := List.perm_insertionSort (· ≤ ·) l
  have hk' : k < (l.insertionSort (· ≤ ·)).length := by rwa [hperm.length_eq]
  rw [kth_eq_getElem hk', ← hperm.countP_eq, ← hperm.length_eq]
  exact length_sub_le_countP (List.pairwise_insertionSort _ l) hk'

/-- **A BOUND ABOVE THE `k`-TH VALUE MISSES THE `k + 1` SMALLEST**. -/
theorem countP_add_le_of_kth_lt (hk : k < l.length) {w : β} (hw : kth l k d < w) :
    l.countP (fun y => w ≤ y) + (k + 1) ≤ l.length := by
  have hperm := List.perm_insertionSort (· ≤ ·) l
  have hk' : k < (l.insertionSort (· ≤ ·)).length := by rwa [hperm.length_eq]
  rw [kth_eq_getElem hk'] at hw
  rw [← hperm.countP_eq, ← hperm.length_eq]
  exact countP_add_le_of_lt (List.pairwise_insertionSort _ l) hk' hw

example : kth [30, 10, 20] 1 0 = 20 := by decide

end OrderStatistic
