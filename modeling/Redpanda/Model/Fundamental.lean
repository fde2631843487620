import Mathlib

/-! # `model::offset` and its neighbours

    Model of the offset helpers of `model/fundamental.h`.  An offset is an
    `int64_t`, kept as an integer; `next_offset` and `prev_offset` clamp at
    the ends of the range the way the code does: below zero the next offset
    is 0, at or below zero the previous offset is the default (least)
    offset, and the greatest offset is its own successor. -/

namespace Model

/-- `model::offset::max()`. -/
def offsetMax : Int := 2 ^ 63 - 1

/-- `model::offset::min()`, which is also `model::offset{}`. -/
def offsetMin : Int := -2 ^ 63

/-- `model::next_offset`. -/
def nextOffset (o : Int) : Int :=
  if o < 0 then 0 else if o = offsetMax then offsetMax else o + 1

/-- `model::prev_offset`. -/
def prevOffset (o : Int) : Int :=
  if o ≤ 0 then offsetMin else o - 1

theorem prevOffset_of_pos {o : Int} (h : 0 < o) : prevOffset o = o - 1 := by
  unfold prevOffset
  split_ifs <;> omega

end Model
