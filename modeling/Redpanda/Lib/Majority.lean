import Mathlib

/-! # Strict majorities over lists of voters

    A voter list may repeat a member; a majority counts positions, not
    members.  `IsMajority p l` says the predicate `p` holds on more than half
    of the positions of `l`.  Two facts carry every quorum argument:

    * two strict majorities of the same list share a member
      (`IsMajority.inter`);
    * a strict majority of a list with one more voter appended still meets
      every strict majority of the list (`IsMajority.inter_concat`).

    Both come from one counting inequality, `countP_add_countP_le`. -/

namespace Majority

variable {α : Type}

/-- `p` holds on a strict majority of the positions of `l`. -/
def IsMajority (p : α → Bool) (l : List α) : Prop :=
  l.length < 2 * l.countP p

/-- Inclusion–exclusion for counts over one list. -/
theorem countP_add_countP_le (p q : α → Bool) (l : List α) :
    l.countP p + l.countP q ≤ l.length + l.countP (fun a => p a && q a) := by
  induction l with
  | nil => simp
  | cons a l ih =>
      simp only [List.countP_cons, List.length_cons]
      cases hp : p a <;> cases hq : q a <;> simp <;> omega

/-- Counts that overflow the list force a common member. -/
theorem exists_common_of_length_lt {p q : α → Bool} {l : List α}
    (h : l.length < l.countP p + l.countP q) : ∃ a ∈ l, p a ∧ q a := by
  have hboth : 0 < l.countP (fun a => p a && q a) := by
    have := countP_add_countP_le p q l
    omega
  obtain ⟨a, ha, hpq⟩ := List.countP_pos_iff.mp hboth
  rw [Bool.and_eq_true] at hpq
  exact ⟨a, ha, hpq⟩

/-- **QUORUM INTERSECTION**: two strict majorities of one list share a
    member. -/
theorem IsMajority.inter {p q : α → Bool} {l : List α} (hp : IsMajority p l)
    (hq : IsMajority q l) : ∃ a ∈ l, p a ∧ q a := by
  unfold IsMajority at hp hq
  exact exists_common_of_length_lt (by omega)

/-- **ONE MORE VOTER**: a strict majority of `l ++ [x]` meets every strict
    majority of `l`. -/
theorem IsMajority.inter_concat {p q : α → Bool} {l : List α} {x : α}
    (hp : IsMajority p (l ++ [x])) (hq : IsMajority q l) : ∃ a ∈ l, p a ∧ q a := by
  unfold IsMajority at hp hq
  have hcount : (l ++ [x]).countP p ≤ l.countP p + 1 := by
    rw [List.countP_append, List.countP_singleton]
    split <;> omega
  rw [List.length_append, List.length_singleton] at hp
  exact exists_common_of_length_lt (by omega)

end Majority
