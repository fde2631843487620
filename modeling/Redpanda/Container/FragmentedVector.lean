import Redpanda.Lib.StdVector

/-! # `fragmented_vector` and `chunked_vector`

    Model of `container/fragmented_vector.h`.  A vector is its fragments,
    each a `std::vector`, with the counters `_size` and `_capacity` the
    class keeps beside them.  The template arguments enter through
    `Params`: `sizeof(T)` and `fragment_size_bytes`, where `none` is
    `std::dynamic_extent`, the `chunked_vector` case.

    A `vassert` that fails, and an access that is undefined behaviour
    (`back()` of no fragments, `pop_back` of an empty `std::vector`, an
    index out of range), give `none`; `at` throws where `operator[]` is
    undefined, and both are `none` there.  The debug generation counter of
    the iterators is left out: it only checks that an iterator is used
    before the next mutation. -/

namespace Container

open StdVector

/-- `std::bit_floor` on `size_t`: the largest power of two not above `x`,
    found by doubling at most 64 times; `0` for `0`. -/
def bitFloor (x : Nat) : Nat := if x = 0 then 0 else go 64 1
where
  go : Nat → Nat → Nat
    | 0, p => p
    | fuel + 1, p => if 2 * p ≤ x then go fuel (2 * p) else p

/-- `max_allocation_size`. -/
def maxAllocationSize : Nat := 128 * 1024

/-- The template arguments as the class reads them. -/
structure Params where
  sizeofT : Nat
  /-- `fragment_size_bytes`; `none` is `std::dynamic_extent`. -/
  fragmentSizeBytes : Option Nat
deriving DecidableEq, Repr

namespace Params

/-- `is_chunked_vector`. -/
def isChunkedVector (P : Params) : Bool := P.fragmentSizeBytes.isNone

/-- `calc_elems_per_frag`. -/
def calcElemsPerFrag (P : Params) : Nat :=
  let max := match P.fragmentSizeBytes with
    | some bytes => bytes / P.sizeofT
    | none => maxAllocationSize / P.sizeofT
  bitFloor max

/-- `initial_cap` of `add_capacity`: at least one element, or 32 bytes of
    small ones. -/
def initialCap (P : Params) : Nat := max 1 (32 / P.sizeofT)

end Params

/-- The state of a `fragmented_vector`. -/
structure FragmentedVector (α : Type) where
  frags : List (Vec α)
  size : Nat
  capacity : Nat
deriving DecidableEq, Repr

namespace FragmentedVector

variable (P : Params) {α : Type}

/-- A default-constructed vector. -/
def empty : FragmentedVector α := ⟨[], 0, 0⟩

/-- `add_capacity`. -/
def addCapacity (v : FragmentedVector α) : FragmentedVector α :=
  let elemsPerFrag := P.calcElemsPerFrag
  -- the path every fragment after the first takes: a full-size fragment
  let addFragment : FragmentedVector α :=
    ⟨v.frags ++ [Vec.empty.reserve elemsPerFrag], v.size, v.capacity + elemsPerFrag⟩
  if P.isChunkedVector then
    match v.frags with
    | [frag] =>
        if frag.capacity < elemsPerFrag then
          let newCap := min elemsPerFrag (frag.capacity * 2)
          ⟨[frag.reserve newCap], v.size, newCap⟩
        else addFragment
    | [] => ⟨[Vec.empty.reserve P.initialCap], v.size, P.initialCap⟩
    | _ => addFragment
  else addFragment

/-- `maybe_add_capacity`. -/
def maybeAddCapacity (v : FragmentedVector α) : FragmentedVector α :=
  if v.size = v.capacity then addCapacity P v else v

/-- `push_back`: `_frags.back().push_back(elem)` after making room. -/
def pushBack (v : FragmentedVector α) (x : α) : Option (FragmentedVector α) :=
  let v := maybeAddCapacity P v
  match v.frags.getLast? with
  | none => none
  | some back => some ⟨v.frags.dropLast ++ [back.pushBack x], v.size + 1, v.capacity⟩

/-- `emplace_back`, with the element it constructs: the same state change
    as `push_back`. -/
def emplaceBack (v : FragmentedVector α) (x : α) : Option (FragmentedVector α) :=
  pushBack P v x

/-- `pop_back`. -/
def popBack (v : FragmentedVector α) : Option (FragmentedVector α) :=
  -- vassert(_size > 0)
  if v.size = 0 then none
  else
    match v.frags.getLast? with
    | none => none
    | some back =>
        match back.popBack with
        | none => none
        | some back =>
            if back.elems.isEmpty then
              some ⟨v.frags.dropLast, v.size - 1,
                v.capacity - min P.calcElemsPerFrag v.capacity⟩
            else some ⟨v.frags.dropLast ++ [back], v.size - 1, v.capacity⟩

/-- `clear`. -/
def clear (_v : FragmentedVector α) : FragmentedVector α := ⟨[], 0, 0⟩

/-- The `while` loop of `pop_back_n`, over the fragments from the back:
    whole fragments go while `n` covers the back one. -/
def dropBackFrags (elemsPerFrag : Nat) :
    List (Vec α) → Nat → Nat → Option (List (Vec α) × Nat × Nat)
  | [], _, _ => none
  | back :: rest, n, capacity =>
      if n ≥ back.size then dropBackFrags elemsPerFrag rest (n - back.size) (capacity - elemsPerFrag)
      else some (back :: rest, n, capacity)

/-- The `for` loop of `pop_back_n`: `n` times `_frags.back().pop_back()`. -/
def popBackTimes : Nat → Vec α → Option (Vec α)
  | 0, back => some back
  | n + 1, back => back.popBack.bind (popBackTimes n)

/-- `pop_back_n`. -/
def popBackN (v : FragmentedVector α) (n : Nat) : Option (FragmentedVector α) :=
  -- vassert(_size >= n)
  if v.size < n then none
  else if v.size = n then some (clear v)
  else
    match dropBackFrags P.calcElemsPerFrag v.frags.reverse n v.capacity with
    | some (back :: rest, left, capacity) =>
        (popBackTimes left back).map fun back => ⟨(back :: rest).reverse, v.size - n, capacity⟩
    | _ => none

/-- `erase_to_end(begin)` with `begin` at index `pos`: `pop_back_n` of
    `cend() - begin`, a negative distance failing the `vassert`. -/
def eraseToEnd (v : FragmentedVector α) (pos : Nat) : Option (FragmentedVector α) :=
  if pos ≤ v.size then popBackN P v (v.size - pos) else none

/-- `at`: `_frags.at(index / elems_per_frag).at(index % elems_per_frag)`. -/
def «at» (v : FragmentedVector α) (index : Nat) : Option α :=
  (v.frags[index / P.calcElemsPerFrag]?).bind fun frag => frag.elems[index % P.calcElemsPerFrag]?

/-- `operator[]`: the same positions as `at`, undefined where `at` throws. -/
def index (v : FragmentedVector α) (i : Nat) : Option α := «at» P v i

/-- What `begin()`..`end()` yields: `operator[]` at indices `0 .. _size - 1`. -/
def elements (v : FragmentedVector α) : List (Option α) :=
  (List.range v.size).map (index P v)

/-- `reserve`: only a chunked vector's first fragment grows. -/
def reserve (v : FragmentedVector α) (newCap : Nat) : FragmentedVector α :=
  if P.isChunkedVector ∧ v.capacity < newCap then
    match v.frags with
    | [] =>
        let frag := Vec.empty.reserve (min P.calcElemsPerFrag newCap)
        ⟨[frag], v.size, frag.capacity⟩
    | [frag] =>
        let frag := frag.reserve (min P.calcElemsPerFrag newCap)
        ⟨[frag], v.size, frag.capacity⟩
    | _ => v
  else v

/-- `shrink_to_fit`: only a chunked vector with one fragment shrinks. -/
def shrinkToFit (v : FragmentedVector α) : FragmentedVector α :=
  if P.isChunkedVector then
    match v.frags with
    | [front] =>
        let front := front.shrinkToFit
        ⟨[front], v.size, front.capacity⟩
    | _ => v
  else v

/-- `swap`: the two vectors exchange their state. -/
def swap (v w : FragmentedVector α) : FragmentedVector α × FragmentedVector α := (w, v)

/-- `operator=(fragmented_vector&&)` of two distinct vectors: the target
    takes the source's state, and the source is left empty (its moved-from
    `_frags` is empty, and its counters are reset). -/
def moveAssign (_dst src : FragmentedVector α) : FragmentedVector α × FragmentedVector α :=
  (src, ⟨[], 0, 0⟩)

end FragmentedVector

end Container
