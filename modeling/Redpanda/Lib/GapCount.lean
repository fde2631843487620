import Mathlib

/-! # Counting covered points below a bound

    A list of closed integer intervals `[b, l]` covers a set of points.
    `gapCount gs o` counts the covered points strictly below `o`, interval by
    interval.  The two facts a translation table needs from it:

    * it is monotone in `o`, and
    * when the intervals are sorted and disjoint (`Separated`), it grows by at
      most one from `o` to `o + 1`.

    Nothing here names a particular program: an interval is a pair of
    integers and the count is plain arithmetic. -/

namespace GapCount

/-- The points of `[b, l]` strictly below `o`. -/
def below (b l o : Int) : Int := max 0 (min (l + 1) o - b)

/-- The covered points strictly below `o`, summed interval by interval. -/
def gapCount : List (Int × Int) → Int → Int
  | [], _ => 0
  | (b, l) :: gs, o => below b l o + gapCount gs o

/-- The total number of covered points. -/
def gapLength : List (Int × Int) → Int
  | [] => 0
  | (b, l) :: gs => (l - b + 1) + gapLength gs

/-- Sorted, non-empty and pairwise disjoint: every interval is non-empty and
    ends before the next one begins. -/
def Separated : List (Int × Int) → Prop
  | [] => True
  | [(b, l)] => b ≤ l
  | (b, l) :: (b', l') :: gs => b ≤ l ∧ l < b' ∧ Separated ((b', l') :: gs)

@[simp] theorem gapCount_nil (o : Int) : gapCount [] o = 0 := rfl

@[simp] theorem gapCount_cons (b l : Int) (gs : List (Int × Int)) (o : Int) :
    gapCount ((b, l) :: gs) o = below b l o + gapCount gs o := rfl

@[simp] theorem gapLength_nil : gapLength [] = 0 := rfl

@[simp] theorem gapLength_cons (b l : Int) (gs : List (Int × Int)) :
    gapLength ((b, l) :: gs) = (l - b + 1) + gapLength gs := rfl

/-! ## One interval -/

theorem below_of_le_base {b l o : Int} (h : o ≤ b) : below b l o = 0 := by
  unfold below
  omega

theorem below_of_mem {b l o : Int} (hb : b ≤ o) (hl : o ≤ l) :
    below b l o = o - b := by
  unfold below
  omega

theorem below_of_last_lt {b l o : Int} (hbl : b ≤ l) (h : l < o) :
    below b l o = l - b + 1 := by
  unfold below
  omega

theorem below_mono (b l : Int) {o o' : Int} (h : o ≤ o') :
    below b l o ≤ below b l o' := by
  unfold below
  omega

/-- From `o` to `o + 1` one interval gains the point `o` exactly when it
    covers `o`. -/
theorem below_succ (b l o : Int) :
    below b l (o + 1) = below b l o + if b ≤ o ∧ o ≤ l then 1 else 0 := by
  unfold below
  split_ifs <;> omega

/-! ## Whole lists -/

theorem gapCount_append (gs hs : List (Int × Int)) (o : Int) :
    gapCount (gs ++ hs) o = gapCount gs o + gapCount hs o := by
  induction gs with
  | nil => simp
  | cons g gs ih =>
      obtain ⟨b, l⟩ := g
      rw [List.cons_append, gapCount_cons, gapCount_cons, ih]
      ring

theorem gapLength_append (gs hs : List (Int × Int)) :
    gapLength (gs ++ hs) = gapLength gs + gapLength hs := by
  induction gs with
  | nil => simp
  | cons g gs ih =>
      obtain ⟨b, l⟩ := g
      rw [List.cons_append, gapLength_cons, gapLength_cons, ih]
      ring

/-- No interval starting at or after `o` covers anything below it. -/
theorem gapCount_eq_zero {gs : List (Int × Int)} {o : Int}
    (h : ∀ g ∈ gs, o ≤ g.1) : gapCount gs o = 0 := by
  induction gs with
  | nil => rfl
  | cons g gs ih =>
      obtain ⟨b, l⟩ := g
      rw [gapCount_cons, below_of_le_base (h (b, l) (by simp)),
        ih (fun g hg => h g (by simp [hg]))]
      rfl

/-- Intervals that end below `o` are counted whole. -/
theorem gapCount_eq_gapLength {gs : List (Int × Int)} {o : Int}
    (h : ∀ g ∈ gs, g.1 ≤ g.2 ∧ g.2 < o) : gapCount gs o = gapLength gs := by
  induction gs with
  | nil => rfl
  | cons g gs ih =>
      obtain ⟨b, l⟩ := g
      have hg := h (b, l) (by simp)
      rw [gapCount_cons, gapLength_cons, below_of_last_lt hg.1 hg.2,
        ih (fun g hg => h g (by simp [hg]))]

/-- **MONOTONE**: the count never decreases as the bound grows. -/
theorem gapCount_mono (gs : List (Int × Int)) {o o' : Int} (h : o ≤ o') :
    gapCount gs o ≤ gapCount gs o' := by
  induction gs with
  | nil => simp
  | cons g gs ih =>
      obtain ⟨b, l⟩ := g
      rw [gapCount_cons, gapCount_cons]
      have := below_mono b l h
      omega

/-- The head of a separated list starts below everything after it ends. -/
theorem Separated.tail_base_gt {b l : Int} {gs : List (Int × Int)}
    (h : Separated ((b, l) :: gs)) : ∀ g ∈ gs, l < g.1 := by
  induction gs generalizing b l with
  | nil => intro g hg; exact nomatch hg
  | cons g' gs ih =>
      obtain ⟨b', l'⟩ := g'
      obtain ⟨_, hlb', hrest⟩ := h
      intro g hg
      rcases List.mem_cons.mp hg with rfl | hg
      · exact hlb'
      · have hb'l' : b' ≤ l' := by
          cases gs with
          | nil => exact hrest
          | cons _ _ => exact hrest.1
        have := ih hrest g hg
        omega

theorem Separated.tail {g : Int × Int} {gs : List (Int × Int)}
    (h : Separated (g :: gs)) : Separated gs := by
  obtain ⟨b, l⟩ := g
  cases gs with
  | nil => trivial
  | cons g' gs =>
      obtain ⟨b', l'⟩ := g'
      exact h.2.2

/-- Every interval of a separated list is non-empty. -/
theorem Separated.base_le {gs : List (Int × Int)} (h : Separated gs) :
    ∀ g ∈ gs, g.1 ≤ g.2 := by
  induction gs with
  | nil => intro g hg; exact nomatch hg
  | cons g' gs ih =>
      obtain ⟨b, l⟩ := g'
      intro g hg
      have hbl : b ≤ l := by
        cases gs with
        | nil => exact h
        | cons _ _ => exact h.1
      rcases List.mem_cons.mp hg with rfl | hg
      · exact hbl
      · exact ih h.tail g hg

/-- A prefix of a separated list is separated. -/
theorem Separated.append_left {gs hs : List (Int × Int)}
    (h : Separated (gs ++ hs)) : Separated gs := by
  induction gs with
  | nil => trivial
  | cons g gs ih =>
      obtain ⟨b, l⟩ := g
      have htail : Separated (gs ++ hs) := Separated.tail (g := (b, l)) h
      cases gs with
      | nil =>
          show b ≤ l
          exact h.base_le (b, l) (by simp)
      | cons g' gs =>
          obtain ⟨b', l'⟩ := g'
          exact ⟨h.1, h.2.1, ih htail⟩

/-- Appending an interval that starts past everything keeps a list separated. -/
theorem Separated.append_single {gs : List (Int × Int)} {b l : Int}
    (h : Separated gs) (hlt : ∀ g ∈ gs, g.2 < b) (hbl : b ≤ l) :
    Separated (gs ++ [(b, l)]) := by
  induction gs with
  | nil => exact hbl
  | cons g gs ih =>
      obtain ⟨b₀, l₀⟩ := g
      have hrest := ih h.tail (fun g hg => hlt g (by simp [hg]))
      have hb₀ : b₀ ≤ l₀ := h.base_le (b₀, l₀) (by simp)
      cases gs with
      | nil => exact ⟨hb₀, hlt (b₀, l₀) (by simp), hrest⟩
      | cons g' gs =>
          obtain ⟨b', l'⟩ := g'
          exact ⟨hb₀, h.2.1, hrest⟩

/-- **ONE STEP AT A TIME**: over separated intervals, the count grows by at
    most one from `o` to `o + 1`. -/
theorem gapCount_succ_le {gs : List (Int × Int)} (hs : Separated gs) (o : Int) :
    gapCount gs (o + 1) ≤ gapCount gs o + 1 := by
  induction gs with
  | nil => simp
  | cons g gs ih =>
      obtain ⟨b, l⟩ := g
      rw [gapCount_cons, gapCount_cons, below_succ]
      by_cases hin : b ≤ o ∧ o ≤ l
      · -- the covering interval gains `o`; every later one starts past `l ≥ o`
        rw [if_pos hin]
        have hlater : ∀ g ∈ gs, o + 1 ≤ g.1 := fun g hg => by
          have := hs.tail_base_gt g hg
          omega
        rw [gapCount_eq_zero hlater, gapCount_eq_zero (fun g hg => by
          have := hlater g hg
          omega)]
        omega
      · rw [if_neg hin]
        have := ih hs.tail
        omega

end GapCount
