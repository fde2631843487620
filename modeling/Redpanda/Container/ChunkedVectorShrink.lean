import Redpanda.Container.FragmentedVector

/-! # A shrunk, reserved `chunked_vector` stops allocating fragments

    `reserve` on an empty `chunked_vector` allocates its first fragment;
    `shrink_to_fit` then shrinks that empty fragment to capacity 0 and sets
    `_capacity` to 0.  From there `add_capacity` doubles a capacity of 0 to
    0, the `std::vector` of the fragment grows by itself, and `_size` runs
    past `_capacity`, so `maybe_add_capacity` never adds a second fragment:
    every element pushed lands in the first one
    (`pushAll_after_shrinking_reserved`).  Once it holds more than
    `elements_per_fragment()` values, `operator[]` and `at` look for them in
    a fragment that does not exist (`index_after_shrinking_reserved`). -/

namespace Container

open StdVector

namespace FragmentedVector

variable (P : Params) {α : Type}

/-- `push_back` of each element in turn. -/
def pushAll (v : FragmentedVector α) (xs : List α) : Option (FragmentedVector α) :=
  xs.foldlM (pushBack P) v

variable {P}

theorem pushAll_cons (v : FragmentedVector α) (x : α) (xs : List α) :
    pushAll P v (x :: xs) = (pushBack P v x).bind fun v => pushAll P v xs := rfl

/-- `add_capacity` of a chunked vector whose only fragment has capacity 0
    allocates nothing. -/
theorem addCapacity_single_zero (hch : P.isChunkedVector = true) (hE : 0 < P.calcElemsPerFrag)
    {f : Vec α} (hcap : f.capacity = 0) (size : Nat) :
    addCapacity P ⟨[f], size, 0⟩ = ⟨[f], size, 0⟩ := by
  have hres : f.reserve 0 = f := by
    unfold Vec.reserve
    rw [if_neg (by omega)]
  unfold addCapacity
  simp only [hch, if_true, hcap, hE, if_true, Nat.zero_mul, Nat.min_zero, hres]

/-- A push into the only fragment of a chunked vector whose `_capacity` is
    0 stays in that fragment and leaves `_capacity` at 0. -/
theorem pushBack_single_zero (hch : P.isChunkedVector = true) (hE : 0 < P.calcElemsPerFrag)
    {f : Vec α} (hf : f.size = 0 → f.capacity = 0) (x : α) :
    pushBack P ⟨[f], f.size, 0⟩ x = some ⟨[f.pushBack x], f.size + 1, 0⟩ := by
  unfold pushBack maybeAddCapacity
  by_cases h0 : f.size = 0
  · -- `_size == _capacity`: `add_capacity` runs and changes nothing
    rw [if_pos h0, addCapacity_single_zero hch hE (hf h0)]
    rfl
  · rw [if_neg h0]
    rfl

/-- **EVERY PUSH STAYS IN THE ONE FRAGMENT**. -/
theorem pushAll_single_zero (hch : P.isChunkedVector = true) (hE : 0 < P.calcElemsPerFrag)
    (xs : List α) : ∀ (f : Vec α), (f.size = 0 → f.capacity = 0) →
      ∃ c, pushAll P ⟨[f], f.size, 0⟩ xs = some ⟨[⟨f.elems ++ xs, c⟩], f.size + xs.length, 0⟩ := by
  induction xs with
  | nil =>
      intro f _
      exact ⟨f.capacity, by simp [pushAll]⟩
  | cons x xs ih =>
      intro f hf
      -- after one push the fragment is not empty, so the hypothesis is void
      have hf' : (f.pushBack x).size = 0 → (f.pushBack x).capacity = 0 := by
        intro h
        rw [Vec.size_pushBack] at h
        omega
      obtain ⟨c, hc⟩ := ih (f.pushBack x) hf'
      refine ⟨c, ?_⟩
      rw [pushAll_cons, pushBack_single_zero hch hE hf x, Option.bind_some,
        ← Vec.size_pushBack (v := f) x, hc]
      simp [Nat.add_assoc, Nat.add_comm 1]

/-- `reserve` then `shrink_to_fit` on an empty chunked vector leaves one
    empty fragment of capacity 0. -/
theorem shrinkToFit_reserve_empty (hch : P.isChunkedVector = true) {k : Nat} (hk : 0 < k) :
    shrinkToFit P (reserve P (empty : FragmentedVector α) k) = ⟨[Vec.empty], 0, 0⟩ := by
  unfold reserve
  rw [if_pos ⟨hch, hk⟩]
  unfold shrinkToFit
  rw [if_pos hch]
  simp [empty, Vec.shrinkToFit, Vec.empty, Vec.size_def]

/-- **A SHRUNK RESERVED CHUNKED VECTOR NEVER ALLOCATES AGAIN**: every
    sequence of pushes after `reserve(k)` and `shrink_to_fit` on an empty
    chunked vector leaves all the elements in one fragment and
    `capacity()` at 0. -/
theorem pushAll_after_shrinking_reserved (hch : P.isChunkedVector = true)
    (hE : 0 < P.calcElemsPerFrag) {k : Nat} (hk : 0 < k) (xs : List α) :
    ∃ c, pushAll P (shrinkToFit P (reserve P empty k)) xs = some ⟨[⟨xs, c⟩], xs.length, 0⟩ := by
  rw [shrinkToFit_reserve_empty hch hk]
  obtain ⟨c, hc⟩ := pushAll_single_zero hch hE xs Vec.empty (fun _ => rfl)
  exact ⟨c, by simpa using hc⟩

/-- With one fragment, positions from `elements_per_fragment()` on are
    read from a fragment that does not exist. -/
theorem at_single_of_le (hE : 0 < P.calcElemsPerFrag) (f : Vec α) (size capacity : Nat) {i : Nat}
    (hi : P.calcElemsPerFrag ≤ i) : «at» P ⟨[f], size, capacity⟩ i = none := by
  have h1 : 1 ≤ i / P.calcElemsPerFrag := (Nat.one_le_div_iff hE).mpr hi
  obtain ⟨j, hj⟩ := Nat.exists_eq_add_of_le h1
  unfold «at»
  rw [hj, Nat.add_comm, List.getElem?_cons_succ]
  simp

/-- **THE ELEMENT AT `elements_per_fragment()` IS LOST**: once more than
    `elements_per_fragment()` elements are pushed, `operator[]` at that
    position finds nothing although the vector's `size()` covers it, the
    one fragment holds more than a fragment may, and `size()` exceeds
    `capacity()`. -/
theorem index_after_shrinking_reserved (hch : P.isChunkedVector = true)
    (hE : 0 < P.calcElemsPerFrag) {k : Nat} (hk : 0 < k) {xs : List α}
    (hlen : P.calcElemsPerFrag < xs.length) :
    ∃ v, pushAll P (shrinkToFit P (reserve P empty k)) xs = some v ∧
      v.size = xs.length ∧ v.capacity < v.size ∧ index P v P.calcElemsPerFrag = none ∧
      ∃ f ∈ v.frags, P.calcElemsPerFrag < f.size := by
  obtain ⟨c, hc⟩ := pushAll_after_shrinking_reserved hch hE hk xs
  refine ⟨_, hc, rfl, by simp only; omega, at_single_of_le hE _ _ _ (Nat.le_refl _), ⟨xs, c⟩,
    List.mem_singleton_self _, hlen⟩

/-- A `chunked_vector` of 64 KiB elements: two elements to a fragment. -/
def largeElements : Params := ⟨65536, none⟩

theorem chunked_vector_shrunk_after_reserve_loses_index :
    largeElements.calcElemsPerFrag = 2 ∧
      pushAll largeElements (shrinkToFit largeElements (reserve largeElements empty 1))
          [10, 11, 12] = some ⟨[⟨[10, 11, 12], 4⟩], 3, 0⟩ ∧
      index largeElements ⟨[⟨[10, 11, 12], 4⟩], 3, 0⟩ 2 = none ∧
      «at» largeElements ⟨[⟨[10, 11, 12], 4⟩], 3, 0⟩ 2 = none ∧
      ([10, 11, 12] : List Nat)[2]? = some 12 := by
  decide

end FragmentedVector

end Container
