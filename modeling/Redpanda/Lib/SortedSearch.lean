import Mathlib

/-! # Searching a sequence sorted by a key

    `std::lower_bound` and `std::upper_bound` by a key `f`: the end of the
    first run of elements whose key is below the needle (at most the
    needle), which on a sorted sequence is where a binary search lands.
    On a sorted sequence the first run is every element that qualifies
    (`takeWhile_eq_filter`), so the positions the searches return name the
    first element above a needle (`head?_filter_lt`) and the last one at or
    below it (`getLast?_filter_le`), and a backward scan that starts at
    `lower_bound` finds the same last one (`filter_take_lowerBound_succ`). -/

namespace SortedSearch

variable {α β : Type}

/-! ## Runs at the front of a list -/

section Runs

variable (p : α → Bool)

/-- A run at the front that the predicate holds of, when it holds of
    everything before anything it holds of, is everything it holds of. -/
theorem takeWhile_eq_filter : ∀ {xs : List α}, xs.Pairwise (fun a b => p b → p a) →
    xs.takeWhile p = xs.filter p
  | [], _ => rfl
  | x :: xs, h => by
    rw [List.pairwise_cons] at h
    by_cases hx : p x
    · rw [List.takeWhile_cons_of_pos hx, List.filter_cons_of_pos hx, takeWhile_eq_filter h.2]
    · rw [List.takeWhile_cons_of_neg hx, List.filter_cons_of_neg hx, eq_comm,
        List.filter_eq_nil_iff]
      exact fun b hb hpb => hx (h.1 b hb hpb)

/-- The element right after the run is the first one the run stopped at. -/
theorem getElem?_length_takeWhile : ∀ xs : List α,
    xs[(xs.takeWhile p).length]? = (xs.dropWhile p).head?
  | [] => rfl
  | x :: xs => by
    by_cases hx : p x
    · rw [List.takeWhile_cons_of_pos hx, List.dropWhile_cons_of_pos hx, List.length_cons,
        List.getElem?_cons_succ, getElem?_length_takeWhile xs]
    · rw [List.takeWhile_cons_of_neg hx, List.dropWhile_cons_of_neg hx]
      rfl

/-- The last element of a nonempty run is the one before where it ends. -/
theorem getLast?_takeWhile (xs : List α) (h : (xs.takeWhile p).length ≠ 0) :
    (xs.takeWhile p).getLast? = xs[(xs.takeWhile p).length - 1]? := by
  have htake := List.prefix_iff_eq_take.1 (List.takeWhile_prefix p (l := xs))
  have hlen : (xs.takeWhile p).length ≤ xs.length := (List.takeWhile_prefix p).length_le
  conv_lhs => rw [htake]
  rw [List.getLast?_take, if_neg h, List.getElem?_eq_getElem (by omega), Option.some_or]

/-- Dropping what a filter would drop anyway changes nothing it keeps. -/
theorem filter_take_of_forall_drop {xs : List α} {n : Nat}
    (h : ∀ x ∈ xs.drop n, p x = false) : (xs.take n).filter p = xs.filter p := by
  have hnil : (xs.drop n).filter p = [] := List.filter_eq_nil_iff.2 fun x hx => by simp [h x hx]
  conv_rhs => rw [← List.take_append_drop n xs]
  rw [List.filter_append, hnil, List.append_nil]

/-- What is left after the run is what the run stopped at and after. -/
theorem drop_length_takeWhile : ∀ xs : List α, xs.drop (xs.takeWhile p).length = xs.dropWhile p
  | [] => rfl
  | x :: xs => by
    by_cases hx : p x
    · rw [List.takeWhile_cons_of_pos hx, List.dropWhile_cons_of_pos hx, List.length_cons,
        List.drop_succ_cons, drop_length_takeWhile xs]
    · rw [List.takeWhile_cons_of_neg hx, List.dropWhile_cons_of_neg hx]
      rfl

/-- What is left after the run, when the predicate holds of everything
    before anything it holds of, is everything it does not hold of. -/
theorem dropWhile_eq_filter : ∀ {xs : List α}, xs.Pairwise (fun a b => p b → p a) →
    xs.dropWhile p = xs.filter fun x => !p x
  | [], _ => rfl
  | x :: xs, h => by
    rw [List.pairwise_cons] at h
    by_cases hx : p x
    · rw [List.dropWhile_cons_of_pos hx, List.filter_cons_of_neg (by simpa using hx),
        dropWhile_eq_filter h.2]
    · rw [List.dropWhile_cons_of_neg hx, List.filter_cons_of_pos (by simpa using hx), eq_comm,
        List.cons_inj_right, List.filter_eq_self]
      -- past an element it does not hold of, it holds of nothing
      intro b hb
      have hpb : ¬ p b = true := fun hpb => hx (h.1 b hb hpb)
      simpa using hpb

/-- The elements from the end of a run of `p` to the end of a run of `q`,
    when each holds of everything before anything it holds of and `p`
    implies `q`: exactly those of `q` that are not of `p`.  This is the
    range between a `lower_bound` and an `upper_bound`. -/
theorem drop_take_takeWhile {q : α → Bool} {xs : List α} (hp : xs.Pairwise (fun a b => p b → p a))
    (hq : xs.Pairwise (fun a b => q b → q a)) (hpq : ∀ x ∈ xs, p x → q x) :
    (xs.take (xs.takeWhile q).length).drop (xs.takeWhile p).length =
      xs.filter fun x => !p x && q x := by
  have hrun : xs.take (xs.takeWhile q).length = xs.filter q := by
    rw [← List.prefix_iff_eq_take.1 (List.takeWhile_prefix q), takeWhile_eq_filter q hq]
  have hp' : (xs.filter q).Pairwise (fun a b => p b → p a) := hp.sublist List.filter_sublist
  -- the run of `p` is the same in what `q` keeps, since `p` implies `q`
  have hsame : (xs.takeWhile p).length = ((xs.filter q).takeWhile p).length := by
    rw [takeWhile_eq_filter p hp, takeWhile_eq_filter p hp', List.filter_filter]
    congr 1
    apply List.filter_congr
    intro x hx
    cases hpx : p x
    · rfl
    · simp [hpq x hx hpx]
  rw [hrun, hsame, drop_length_takeWhile, dropWhile_eq_filter p hp', List.filter_filter]

/-- The last element a filter keeps is the first a backward scan finds. -/
theorem find?_reverse (xs : List α) : xs.reverse.find? p = (xs.filter p).getLast? := by
  rw [List.head?_filter.symm, List.filter_reverse, List.head?_reverse]

end Runs

/-! ## Bounds -/

section Bounds

variable [LinearOrder β] (f : α → β)

/-- `std::lower_bound` by `f`: the length of the first run of elements
    whose key is below `needle`. -/
def lowerBound (xs : List α) (needle : β) : Nat :=
  (xs.takeWhile fun x => f x < needle).length

/-- `std::upper_bound` by `f`: the length of the first run of elements
    whose key is at most `needle`. -/
def upperBound (xs : List α) (needle : β) : Nat :=
  (xs.takeWhile fun x => f x ≤ needle).length

theorem upperBound_le_length (xs : List α) (needle : β) : upperBound f xs needle ≤ xs.length :=
  (List.takeWhile_prefix _).length_le

theorem lowerBound_le_length (xs : List α) (needle : β) : lowerBound f xs needle ≤ xs.length :=
  (List.takeWhile_prefix _).length_le

variable {f}

/-- Past a run of keys at most `needle`, in a list sorted by key, every key
    is above it. -/
theorem lt_of_mem_dropWhile_le {xs : List α} (hs : xs.Pairwise (fun a b => f a ≤ f b))
    {needle : β} : ∀ x ∈ xs.dropWhile (fun x => f x ≤ needle), needle < f x := by
  induction xs with
  | nil => simp
  | cons y ys ih =>
    rw [List.pairwise_cons] at hs
    by_cases hy : f y ≤ needle
    · rw [List.dropWhile_cons_of_pos (by simpa using hy)]
      exact ih hs.2
    · rw [List.dropWhile_cons_of_neg (by simpa using hy)]
      intro x hx
      rcases List.mem_cons.1 hx with rfl | hx
      · exact lt_of_not_ge hy
      · exact lt_of_lt_of_le (lt_of_not_ge hy) (hs.1 x hx)

/-- In a list sorted by key, the first element above `needle` is the one at
    `upper_bound`. -/
theorem head?_filter_lt {xs : List α} (hs : xs.Pairwise (fun a b => f a ≤ f b)) (needle : β) :
    (xs.filter fun x => needle < f x).head? = xs[upperBound f xs needle]? := by
  have hrest : (xs.dropWhile fun x => f x ≤ needle).filter (fun x => needle < f x) =
      xs.dropWhile fun x => f x ≤ needle :=
    List.filter_eq_self.2 (fun x hx => by simpa using lt_of_mem_dropWhile_le hs x hx)
  have hrun : (xs.takeWhile fun x => f x ≤ needle).filter (fun x => needle < f x) = [] :=
    List.filter_eq_nil_iff.2 fun x hx => by
      have hle := List.mem_takeWhile_imp hx
      simp only [decide_eq_true_eq] at hle
      simpa using hle
  conv_lhs => rw [← List.takeWhile_append_dropWhile (p := fun x => decide (f x ≤ needle)) (l := xs)]
  rw [List.filter_append, hrun, hrest, List.nil_append, upperBound, getElem?_length_takeWhile]

/-- In a list sorted by key, the last element at most `needle` is the one
    before `upper_bound`. -/
theorem getLast?_filter_le {xs : List α} (hs : xs.Pairwise (fun a b => f a ≤ f b)) (needle : β) :
    (xs.filter fun x => f x ≤ needle).getLast? =
      if 0 < upperBound f xs needle then xs[upperBound f xs needle - 1]? else none := by
  have hrun : (xs.takeWhile fun x => f x ≤ needle) = xs.filter fun x => f x ≤ needle :=
    takeWhile_eq_filter _ (hs.imp fun hab hb => by simpa using le_trans hab (by simpa using hb))
  rw [← hrun]
  split_ifs with h
  · exact getLast?_takeWhile _ xs (Nat.pos_iff_ne_zero.1 h)
  · rw [upperBound, Nat.not_lt, Nat.le_zero, List.length_eq_zero_iff] at h
    rw [h]
    rfl

/-- In a list sorted by key, the elements before `lower_bound` are those
    whose key is below `needle`. -/
theorem take_lowerBound {xs : List α} (hs : xs.Pairwise (fun a b => f a ≤ f b)) (needle : β) :
    xs.take (lowerBound f xs needle) = xs.filter fun x => f x < needle := by
  rw [lowerBound, ← List.prefix_iff_eq_take.1 (List.takeWhile_prefix _)]
  exact takeWhile_eq_filter _ (hs.imp fun hab hb => by simpa using lt_of_le_of_lt hab (by simpa using hb))

/-- In a list strictly sorted by key, nothing past the element at
    `lower_bound` has a key at most `needle`: a scan back from there sees
    everything at most `needle`. -/
theorem filter_take_lowerBound_succ {xs : List α} (hs : xs.Pairwise (fun a b => f a < f b))
    (needle : β) :
    (xs.take (lowerBound f xs needle + 1)).filter (fun x => f x ≤ needle) =
      xs.filter fun x => f x ≤ needle := by
  apply filter_take_of_forall_drop
  intro x hx
  -- what follows the run is the element at `lower_bound` and then larger keys
  have hdrop : xs.drop (lowerBound f xs needle) = xs.dropWhile fun x => f x < needle :=
    drop_length_takeWhile _ xs
  cases hd : xs.dropWhile (fun x => f x < needle) with
  | nil =>
    rw [← List.drop_drop, hdrop, hd] at hx
    simp at hx
  | cons y ys =>
    rw [← List.drop_drop, hdrop, hd, List.drop_one, List.tail_cons] at hx
    have hy : needle ≤ f y := by
      have := List.head_dropWhile_not (fun x => decide (f x < needle)) (l := xs) (by simp [hd])
      simpa [hd] using this
    have hsuffix : (xs.dropWhile fun x => f x < needle).Pairwise (fun a b => f a < f b) :=
      hs.sublist (List.dropWhile_suffix _).sublist
    rw [hd, List.pairwise_cons] at hsuffix
    simpa using lt_of_le_of_lt hy (hsuffix.1 x hx)

end Bounds

end SortedSearch
