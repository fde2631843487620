import Mathlib

/-! # `std::vector` with its capacity

    A vector is its elements and its capacity, as libc++ keeps them:
    `reserve(n)` reallocates to exactly `n` when `n` exceeds the capacity,
    `shrink_to_fit` reallocates to exactly the size, and a `push_back` into
    a full vector reallocates to `max(2 * capacity, size + 1)`
    (`__recommend`, below `max_size`).  `pop_back` keeps the capacity.

    The lemmas say what each operation does to the elements, the size and
    the capacity, so that a container built on vectors never unfolds them. -/

namespace StdVector

/-- A `std::vector`: its elements and its capacity. -/
structure Vec (α : Type) where
  elems : List α
  capacity : Nat
deriving DecidableEq, Repr

variable {α : Type}

namespace Vec

/-- A default-constructed vector. -/
def empty : Vec α := ⟨[], 0⟩

def size (v : Vec α) : Nat := v.elems.length

def reserve (v : Vec α) (n : Nat) : Vec α :=
  if v.capacity < n then { v with capacity := n } else v

def shrinkToFit (v : Vec α) : Vec α := { v with capacity := v.size }

def pushBack (v : Vec α) (x : α) : Vec α :=
  { elems := v.elems ++ [x]
    capacity := if v.size < v.capacity then v.capacity else max (2 * v.capacity) (v.size + 1) }

/-- `pop_back`; `none` on an empty vector, where it is undefined. -/
def popBack (v : Vec α) : Option (Vec α) :=
  if v.elems = [] then none else some { v with elems := v.elems.dropLast }

variable {v : Vec α}

@[simp] theorem elems_empty : (empty : Vec α).elems = [] := rfl
@[simp] theorem capacity_empty : (empty : Vec α).capacity = 0 := rfl
@[simp] theorem size_empty : (empty : Vec α).size = 0 := rfl

theorem size_def : v.size = v.elems.length := rfl

@[simp] theorem elems_reserve (n : Nat) : (v.reserve n).elems = v.elems := by
  unfold reserve
  split <;> rfl

@[simp] theorem size_reserve (n : Nat) : (v.reserve n).size = v.size := by
  simp [size_def]

@[simp] theorem capacity_reserve (n : Nat) : (v.reserve n).capacity = max v.capacity n := by
  unfold reserve
  split
  · rename_i h
    show n = max v.capacity n
    omega
  · rename_i h
    show v.capacity = max v.capacity n
    omega

@[simp] theorem elems_shrinkToFit : v.shrinkToFit.elems = v.elems := rfl
@[simp] theorem capacity_shrinkToFit : v.shrinkToFit.capacity = v.size := rfl

@[simp] theorem elems_pushBack (x : α) : (v.pushBack x).elems = v.elems ++ [x] := rfl

@[simp] theorem size_pushBack (x : α) : (v.pushBack x).size = v.size + 1 := by
  simp [size_def]

/-- A push into spare capacity keeps the capacity. -/
theorem capacity_pushBack_of_lt (x : α) (h : v.size < v.capacity) :
    (v.pushBack x).capacity = v.capacity := by
  simp [pushBack, h]

theorem popBack_eq_some (h : v.elems ≠ []) :
    v.popBack = some { v with elems := v.elems.dropLast } := by
  simp [popBack, h]

end Vec

end StdVector
